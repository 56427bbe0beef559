import Stencil.Proofs.Document.Convergence
import Stencil.Proofs.Document.Site

/-!
# References of a comparison

The references of the common tree are those of the notes, in the same order
(`Converges.referencesList_eq`), and no two of them are equal (`references_compareTrees_nodup`).
The invariant is that all places noted from a position on lie after that position and not behind
the last node that is passed; what is noted inside an element thus lies between what is noted
before and after it.
-/

namespace Stencil

@[simp] theorem Ordinals.add_nodes (a b : Ordinals) : (a.add b).nodes = a.nodes + b.nodes := rfl

@[simp] theorem Ordinals.add_texts (a b : Ordinals) : (a.add b).texts = a.texts + b.texts := rfl

@[simp] theorem Ordinals.add_attrs (a b : Ordinals) : (a.add b).attrs = a.attrs + b.attrs := rfl

theorem Ordinals.add_assoc (a b c : Ordinals) : (a.add b).add c = a.add (b.add c) := by
  simp [Ordinals.add, Nat.add_assoc]

theorem Node.ordinals_nodes_pos (node : Node) : 0 < node.ordinals.nodes := by
  cases node <;> simp only [Node.ordinals, Ordinals.add_nodes] <;> omega

namespace Comparison

/-! ## References of notes -/

/-- The reference of the placeholder that a note introduces. -/
def Note.reference? : Note → Option String
  | .placeholder reference _ _ => some reference
  | .warning _ => none

/-- The references of the placeholders that the notes introduce. -/
def noteReferences (notes : List Note) : List String :=
  notes.filterMap Note.reference?

@[simp] theorem noteReferences_placeholder
    (reference : String) (anchor other : Value) (notes : List Note) :
    noteReferences (.placeholder reference anchor other :: notes) =
      reference :: noteReferences notes :=
  rfl

@[simp] theorem noteReferences_append (notes more : List Note) :
    noteReferences (notes ++ more) = noteReferences notes ++ noteReferences more :=
  List.filterMap_append

@[simp] theorem noteReferences_warnings (warnings : List Warning) :
    noteReferences (warnings.map .warning) = [] := by
  simp [noteReferences, Note.reference?]

theorem Shares.references_eq
    {other attrs shared : List Attribute} {n : Nat} {notes : List Note}
    (h : Shares other n attrs shared notes) :
    Attribute.references shared = noteReferences notes := by
  induction h with
  | nil => rfl
  | drop _ _ ih => exact ih
  | keep _ _ ih => exact ih
  | var _ _ _ ih => exact congrArg (_ :: ·) ih

/-- The common tree has the references of the notes, in the same order. -/
theorem Converges.referencesList_eq
    {position : Position} {anchor other nodes : List Node} {notes : List Note}
    (h : Converges position anchor other nodes notes) :
    Node.referencesList nodes = noteReferences notes := by
  induction h with
  | nil => rfl
  | keep hkeeps _ ih => cases hkeeps <;> exact ih
  | var _ _ ih => exact congrArg (_ :: ·) ih
  | element _ _ hshared _ _ ihInside ih =>
      simp [Node.referencesList, Node.references, hshared.references_eq, ihInside, ih]
  | lone hconcrete _ _ ih | extra hconcrete _ _ ih =>
      rw [Node.referencesList_conditional_of_concrete hconcrete, ih]
      rfl

/-! ## References at different places -/

/-- The references tell different places, all with the property. -/
def PlacedAt (p : Site → Prop) (references : List String) : Prop :=
  ∃ sites : List Site, references = sites.map Site.reference ∧ sites.Nodup ∧
    ∀ site ∈ sites, p site

section PlacedAt

variable {p q : Site → Prop} {references more : List String}

theorem PlacedAt.nil : PlacedAt p [] :=
  ⟨[], rfl, List.nodup_nil, by simp⟩

theorem PlacedAt.mono (h : PlacedAt p references) (hpq : ∀ site, p site → q site) :
    PlacedAt q references := by
  obtain ⟨sites, hreferences, hnodup, hsites⟩ := h
  exact ⟨sites, hreferences, hnodup, fun site hsite => hpq site (hsites site hsite)⟩

theorem PlacedAt.append
    (hreferences : PlacedAt p references) (hmore : PlacedAt q more)
    (hdisjoint : ∀ site, p site → ¬q site) :
    PlacedAt (fun site => p site ∨ q site) (references ++ more) := by
  obtain ⟨sites, rfl, hnodup, hsites⟩ := hreferences
  obtain ⟨later, rfl, hlaterNodup, hlater⟩ := hmore
  refine ⟨sites ++ later, List.map_append.symm, ?_, ?_⟩
  · refine List.nodup_append.mpr ⟨hnodup, hlaterNodup, ?_⟩
    rintro site hsite _ hmem rfl
    exact hdisjoint site (hsites site hsite) (hlater site hmem)
  · intro site hsite
    rcases List.mem_append.mp hsite with hsite | hsite
    · exact Or.inl (hsites site hsite)
    · exact Or.inr (hlater site hsite)

theorem PlacedAt.cons
    (site : Site)
    (hsite : p site) (hmore : PlacedAt q more) (hfresh : ¬q site)
    (hqp : ∀ later, q later → p later) :
    PlacedAt p (site.reference :: more) := by
  have hfirst : PlacedAt (· = site) [site.reference] :=
    ⟨[site], rfl, List.nodup_singleton site, by simp⟩
  refine (hfirst.append hmore ?_).mono ?_
  · rintro _ rfl
    exact hfresh
  · rintro _ (rfl | h)
    · exact hsite
    · exact hqp _ h

theorem PlacedAt.nodup (h : PlacedAt p references) : references.Nodup := by
  obtain ⟨sites, rfl, hnodup, -⟩ := h
  exact hnodup.map Site.reference_injective

end PlacedAt

/-! ## Places between two positions -/

/-- The place is noted after the position, and not behind the last node counted by `last`. -/
def Site.Between (position : Position) (last : Ordinals) : Site → Prop
  | .text n => position.before.texts < n ∧ n ≤ last.texts
  | .attribute n => position.before.attrs < n ∧ n ≤ last.attrs
  | .node n => position.before.nodes < n ∧ n ≤ last.nodes
  | .insertion parent child k =>
    (parent = position.parent ∧
        (position.child < child ∨ child = position.child ∧ position.insertions < k)) ∨
      (position.before.nodes < parent ∧ parent ≤ last.nodes)

/-- An attribute with a number after `n` and not after `last`. -/
def Site.AttributeBetween (n last : Nat) : Site → Prop
  | .attribute m => n < m ∧ m ≤ last
  | .text _ | .node _ | .insertion .. => False

theorem Site.Between.of_past
    {position : Position} {a : Node} {last : Ordinals} {site : Site}
    (h : site.Between (position.past a) last) :
    site.Between position last := by
  cases site <;> simp only [Site.Between, Position.past, Ordinals.add_nodes, Ordinals.add_texts,
    Ordinals.add_attrs] at h ⊢ <;> omega

theorem Site.Between.of_inserted
    {position : Position} {last : Ordinals} {site : Site}
    (h : site.Between position.inserted last) :
    site.Between position last := by
  cases site <;> simp only [Site.Between, Position.inserted] at h ⊢ <;> omega

theorem Shares.placedAt
    {other attrs shared : List Attribute} {n : Nat} {notes : List Note}
    (h : Shares other n attrs shared notes) :
    PlacedAt (Site.AttributeBetween n (n + attrs.length)) (noteReferences notes) := by
  induction h with
  | nil => exact .nil
  | drop _ _ ih | keep _ _ ih =>
      refine ih.mono fun site hsite => ?_
      cases site <;> simp only [Site.AttributeBetween, List.length_cons] at hsite ⊢
      omega
  | @var n _ _ _ _ _ _ _ _ _ ih =>
      refine PlacedAt.cons (.attribute (n + 1)) ?_ ih ?_ fun site hsite => ?_
      · simp only [Site.AttributeBetween, List.length_cons]
        omega
      · simp only [Site.AttributeBetween]
        omega
      · cases site <;> simp only [Site.AttributeBetween, List.length_cons] at hsite ⊢
        omega

/-- The invariant of a comparison: everything noted lies between the position and the last node
passed, so what is noted inside an element lies between its number and the next sibling. -/
theorem Converges.placedAt
    {position : Position} {anchor other nodes : List Node} {notes : List Note}
    (h : Converges position anchor other nodes notes)
    (hparent : position.parent ≤ position.before.nodes) :
    PlacedAt (Site.Between position (position.before.add (Node.ordinalsList anchor)))
      (noteReferences notes) := by
  induction h with
  | nil => exact .nil
  | @keep position a _ as _ _ _ _ _ ih =>
      have hrest := ih (by simp only [Position.past, Ordinals.add_nodes]; omega)
      rw [Position.past, Ordinals.add_assoc] at hrest
      exact hrest.mono fun _ => Site.Between.of_past
  | @var position v _ as _ _ _ _ _ ih =>
      have hrest := ih (by simp only [Position.past, Ordinals.add_nodes]; omega)
      rw [Position.past, Ordinals.add_assoc] at hrest
      refine PlacedAt.cons (.text (position.before.texts + 1)) ?_ hrest ?_ fun _ =>
        Site.Between.of_past
      · simp only [Site.Between, Node.ordinalsList, Node.ordinals, Ordinals.add_texts]
        omega
      · simp only [Site.Between, Node.ordinals, Ordinals.add_texts]
        omega
  | @element position name attrs otherAttrs _ children _ _ as _ _ _ _ _ _ _ hshared _ _ ihInside
      ih =>
      have hinner := ihInside (by simp only [Position.inside, Ordinals.add_nodes]; omega)
      have hrest := ih (by simp only [Position.past, Ordinals.add_nodes]; omega)
      rw [Position.past, Ordinals.add_assoc] at hrest
      rw [noteReferences_append, noteReferences_append, noteReferences_append,
        noteReferences_warnings, List.append_nil]
      refine ((hshared.placedAt.append hinner ?_).append hrest ?_).mono ?_
      · intro site hsite hbetween
        cases site <;> simp only [Site.AttributeBetween, Site.Between, Position.inside,
          Ordinals.add_attrs] at hsite hbetween
        omega
      · intro site hsite hbetween
        cases site <;> simp only [Site.AttributeBetween, Site.Between, Position.inside,
          Node.ordinals, Ordinals.add_nodes, Ordinals.add_texts, Ordinals.add_attrs, false_or]
          at hsite hbetween <;> omega
      · intro site hsite
        cases site <;> simp only [Site.AttributeBetween, Site.Between, Position.inside,
          Node.ordinalsList, Node.ordinals, Ordinals.add_nodes, Ordinals.add_texts,
          Ordinals.add_attrs, false_or] at hsite ⊢ <;> omega
  | @lone position a _ as _ _ _ _ _ ih =>
      have hrest := ih (by simp only [Position.past, Ordinals.add_nodes]; omega)
      have hpos := a.ordinals_nodes_pos
      rw [Position.past, Ordinals.add_assoc] at hrest
      refine PlacedAt.cons (.node (position.before.nodes + 1)) ?_ hrest ?_ fun _ =>
        Site.Between.of_past
      · simp only [Site.Between, Node.ordinalsList, Ordinals.add_nodes]
        omega
      · simp only [Site.Between, Ordinals.add_nodes]
        omega
  | @extra position _ _ _ _ _ _ _ _ ih =>
      have hrest := ih hparent
      refine PlacedAt.cons
        (.insertion position.parent position.child (position.insertions + 1)) ?_ hrest ?_ fun _ =>
          Site.Between.of_inserted
      · exact Or.inl ⟨rfl, Or.inr ⟨rfl, Nat.lt_succ_self _⟩⟩
      · simp only [Site.Between, Position.inserted]
        omega

/-- All references of the common tree are different. -/
theorem references_compareTrees_nodup
    {anchor other : List Node}
    (hanchor : Node.Concrete anchor) (hother : Node.Concrete other) :
    (Node.referencesList (compareTrees anchor other).value).Nodup := by
  have h := converges_compareTrees hanchor hother
  rw [h.referencesList_eq]
  exact (h.placedAt (Nat.le_refl _)).nodup

end Comparison

end Stencil
