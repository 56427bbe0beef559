import Stencil.Proofs.Document.Rendering
import Stencil.Proofs.Layout.WellFormed

/-!
# Layouts that cover a tree

A layout covers a concrete tree if the nodes of the tree have slots of their own in the layout, in
order and at every depth; a slot may lie below guards, and slots may be left over.  The layout of a
comparison covers both trees (`Comparison.Converges.covers`), a merge covers whatever either layout
covers (`Node.Merges.covers`), and renaming plays no part (`Node.Renames.covers`).  If no attribute
was dropped on the way, every slot has the attribute names of the element that it covers.
-/

namespace Stencil

namespace Node

mutual

/-- The slot may be filled by the concrete node; if `exact`, the slots of elements have the
attribute names of the elements, here and below. -/
inductive Covers (exact : Bool) : Node → Node → Prop
  | var (reference value : String) : Covers exact (.var reference) (.text value)
  | text (value : String) : Covers exact (.text value) (.text value)
  | doctype (value : String) : Covers exact (.doctype value) (.doctype value)
  | comment (value other : String) : Covers exact (.comment value) (.comment other)
  | content : Covers exact .content .content
  | element (name : String) {attrs concrete : List Attribute} {slots children : List Node}
      (hnames : exact = true → ∀ other : String,
        other ∈ attrs.map Attribute.name ↔ other ∈ concrete.map Attribute.name)
      (hchildren : CoversList exact slots children) :
      Covers exact (.element name attrs slots) (.element name concrete children)
  | conditional (reference : String) {child node : Node} (h : Covers exact child node) :
      Covers exact (.conditional reference child) node

/-- Every concrete node has a slot of its own that it may fill, in the same order. -/
inductive CoversList (exact : Bool) : List Node → List Node → Prop
  | nil : CoversList exact [] []
  | skip (slot : Node) {slots nodes : List Node} (hrest : CoversList exact slots nodes) :
      CoversList exact (slot :: slots) nodes
  | take {slot node : Node} {slots nodes : List Node}
      (h : Covers exact slot node) (hrest : CoversList exact slots nodes) :
      CoversList exact (slot :: slots) (node :: nodes)

end

section Covers

variable {exact : Bool} {slot other node : Node} {slots others nodes : List Node}

/-- Guards play no part in what a slot covers. -/
theorem covers_core_iff : Covers exact slot.core node ↔ Covers exact slot node := by
  induction slot using core.induct with
  | case1 reference child ih =>
      constructor
      · exact fun h => .conditional reference (ih.mp h)
      · rintro (_ | _ | _ | _ | _ | _ | ⟨_, h⟩)
        exact ih.mpr h
  | case2 slot hguard =>
      have hkind : slot.kind ≠ .conditional := by
        cases slot <;> first | exact absurd rfl (hguard _ _) | simp [kind]
      rw [core_eq_self hkind]

theorem covers_guarded_iff {references : List String} :
    Covers exact (guarded references slot) node ↔ Covers exact slot node := by
  rw [← covers_core_iff, core_guarded, covers_core_iff]

/-- A list of slots covers more if its first slot does and its later ones do. -/
theorem CoversList.cons_mono
    (h : CoversList exact (slot :: slots) nodes)
    (hslot : ∀ node, Covers exact slot node → Covers exact other node)
    (hslots : ∀ rest, CoversList exact slots rest → CoversList exact others rest) :
    CoversList exact (other :: others) nodes := by
  cases h with
  | skip _ hrest => exact .skip other (hslots _ hrest)
  | take h hrest => exact .take (hslot _ h) (hslots _ hrest)

theorem coversList_singleton_iff : CoversList exact [slot] [node] ↔ Covers exact slot node := by
  constructor
  · rintro (_ | ⟨_, hrest⟩ | ⟨h, _⟩)
    · cases hrest
    · exact h
  · exact fun h => .take h .nil

/-- A concrete tree covers itself. -/
theorem coversList_self (exact : Bool) (hconcrete : Concrete nodes) :
    CoversList exact nodes nodes := by
  induction hconcrete using Concrete.inductionOn with
  | nil => exact .nil
  | doctype value _ _ _ ih => exact .take (.doctype value) ih
  | element name _ _ _ _ _ _ ihChildren _ ih =>
      exact .take (.element name (fun _ _ => Iff.rfl) ihChildren) ih
  | text value _ _ _ ih => exact .take (.text value) ih
  | comment value _ _ _ ih => exact .take (.comment value value) ih
  | content _ _ _ ih => exact .take .content ih

end Covers

/-! ## Merging -/

section Merging

variable {exact : Bool} {a b node : Node}

/-- What absorbs a slot covers what the slot covers. -/
theorem covers_absorb
    (hshare : sameSlot a b = true) (hguard : a.kind ≠ .conditional) (hleaf : a.kind ≠ .element)
    (h : Covers exact a node ∨ Covers exact b node) :
    Covers exact (absorb a b) node := by
  cases a <;> cases b <;> simp only [sameSlot, kind, beq_iff_eq, ne_eq, not_true_eq_false,
    reduceCtorEq] at hshare hguard hleaf
  case doctype.doctype | text.text | var.var =>
    subst hshare
    simpa [absorb, kind] using h
  case text.var reference =>
    change Covers exact (.var reference) node
    rcases h with h | h
    · cases h
      exact .var reference _
    · exact h
  case var.text reference _ =>
    change Covers exact (.var reference) node
    rcases h with h | h
    · exact h
    · cases h
      exact .var reference _
  case comment.comment value _ =>
    change Covers exact (.comment value) node
    rcases h with h | h
    · exact h
    · cases h
      exact .comment value _
  case content.content => exact h.elim id id
  case markdown.markdown | loop.loop => rcases h with h | h <;> cases h

/-- An element covers what another covers if it has the same attribute names, where names count,
and its children cover what those of the other cover. -/
theorem covers_element_of_names
    {name : String} {attrs merged : List Attribute} {slots inner : List Node}
    (hnames : exact = true → ∀ other : String,
      other ∈ merged.map Attribute.name ↔ other ∈ attrs.map Attribute.name)
    (hinside : ∀ nodes, CoversList exact slots nodes → CoversList exact inner nodes)
    (h : Covers exact (.element name attrs slots) node) :
    Covers exact (.element name merged inner) node := by
  cases h with
  | element _ hconcrete hchildren =>
      refine .element name (fun hexact other => ?_) (hinside _ hchildren)
      rw [hnames hexact other, hconcrete hexact other]

/-- A merge covers whatever either of the layouts covers. -/
theorem Merges.covers
    {first second merged : List Node} {notes : List Warning}
    (h : Merges first second merged notes)
    (hfirst : Everywhere IsSlot first) (hsecond : Everywhere IsSlot second)
    (hkept : exact = true → notes = []) :
    (∀ nodes, CoversList exact first nodes → CoversList exact merged nodes) ∧
      ∀ nodes, CoversList exact second nodes → CoversList exact merged nodes := by
  induction h with
  | nil => exact ⟨fun _ => id, fun _ => id⟩
  | @absorb a b _ _ _ _ hshare hleaf _ ih =>
      obtain ⟨ihFirst, ihSecond⟩ :=
        ih (everywhere_cons.mp hfirst).2 (everywhere_cons.mp hsecond).2 hkept
      -- Guards play no part in what is covered, so only the cores have to be compared.
      have habsorb : ∀ node, Covers exact a node ∨ Covers exact b node →
          Covers exact (guarded (mergedGuards a b) (Node.absorb a.core b.core)) node := by
        intro node h
        rw [covers_guarded_iff]
        apply covers_absorb hshare (kind_core_ne_conditional a) hleaf
        rwa [covers_core_iff, covers_core_iff]
      exact ⟨fun _ h => h.cons_mono (fun node h => habsorb node (Or.inl h)) ihFirst,
        fun _ h => h.cons_mono (fun node h => habsorb node (Or.inr h)) ihSecond⟩
  | @element a b name attrs otherAttrs _ _ _ _ _ _ _ _ hacore hbcore _ _ ihInside ih =>
      obtain ⟨ha, has⟩ := everywhere_cons.mp hfirst
      obtain ⟨hb, hbs⟩ := everywhere_cons.mp hsecond
      obtain ⟨⟨hnames, -⟩, haChildren, -⟩ := everywhere_element.mp (hacore ▸ everywhere_core ha)
      obtain ⟨⟨hotherNames, -⟩, hbChildren, -⟩ :=
        everywhere_element.mp (hbcore ▸ everywhere_core hb)
      simp only [List.append_eq_nil_iff] at hkept
      obtain ⟨ihFirst, ihSecond⟩ := ih has hbs fun hexact => (hkept hexact).2
      obtain ⟨ihInsideFirst, ihInsideSecond⟩ :=
        ihInside haChildren hbChildren fun hexact => (hkept hexact).1.2
      have hreconciled : exact = true → ∀ other : String, _ ∧ _ := fun hexact other =>
        Attribute.mem_names_reconcile_iff other hnames hotherNames (hkept hexact).1.1
      refine ⟨fun _ h => h.cons_mono (fun node h => ?_) ihFirst,
        fun _ h => h.cons_mono (fun node h => ?_) ihSecond⟩
      · rw [covers_guarded_iff]
        rw [← covers_core_iff, hacore] at h
        exact covers_element_of_names (fun hexact other => (hreconciled hexact other).1)
          ihInsideFirst h
      · rw [covers_guarded_iff]
        rw [← covers_core_iff, hbcore] at h
        exact covers_element_of_names (fun hexact other => (hreconciled hexact other).2)
          ihInsideSecond h
  | @first a _ _ _ _ _ _ ih =>
      obtain ⟨ihFirst, ihSecond⟩ := ih (everywhere_cons.mp hfirst).2 hsecond hkept
      -- The slot is the same for the first layout, and the second does without it.
      exact ⟨fun _ h => h.cons_mono (fun _ => id) ihFirst, fun _ h => .skip a (ihSecond _ h)⟩
  | @second b _ _ _ _ _ _ ih =>
      obtain ⟨ihFirst, ihSecond⟩ := ih hfirst (everywhere_cons.mp hsecond).2 hkept
      exact ⟨fun _ h => .skip b (ihFirst _ h), fun _ h => h.cons_mono (fun _ => id) ihSecond⟩

end Merging

/-! ## Renaming -/

/-- Renaming changes nothing about what a layout covers. -/
theorem Renames.covers
    {exact : Bool} {slots renamed nodes : List Node}
    (h : Renames slots renamed) (hcovers : CoversList exact slots nodes) :
    CoversList exact renamed nodes := by
  induction h generalizing nodes with
  | nil => exact hcovers
  | same _ _ ih => exact hcovers.cons_mono (fun _ => id) fun _ => ih
  | element name hattrs _ _ ihChildren ih =>
      refine hcovers.cons_mono (fun node h => ?_) fun _ => ih
      apply covers_element_of_names (fun _ other => ?_) (fun _ => ihChildren) h
      rw [hattrs.names_eq]
  | @var _ name _ _ _ _ ih =>
      refine hcovers.cons_mono (fun node h => ?_) fun _ => ih
      cases h with
      | var _ value => exact .var name value
  | markdown _ _ ih =>
      refine hcovers.cons_mono (fun node h => ?_) fun _ => ih
      cases h
  | @conditional _ name _ _ _ _ _ _ _ ihChild ih =>
      refine hcovers.cons_mono (fun node h => ?_) fun _ => ih
      cases h with
      | conditional _ h =>
          apply Covers.conditional name
          exact coversList_singleton_iff.mp (ihChild (coversList_singleton_iff.mpr h))
  | loop _ _ _ _ ih =>
      refine hcovers.cons_mono (fun node h => ?_) fun _ => ih
      cases h

end Node

/-! ## Comparing -/

namespace Comparison

theorem Shares.mem_names_iff
    {other attrs shared : List Attribute} {n : Nat} {notes : List Note} {name : String}
    (h : Shares other n attrs shared notes) :
    name ∈ shared.map Attribute.name ↔
      name ∈ attrs.map Attribute.name ∧ name ∈ other.map Attribute.name := by
  induction h with
  | nil => simp
  | @drop _ attr _ _ _ hnone _ ih =>
      have hmissing := Attribute.notMem_names_of_named? hnone
      rw [ih, List.map_cons, List.mem_cons]
      constructor
      · exact fun h => ⟨Or.inr h.1, h.2⟩
      · rintro ⟨rfl | h, hother⟩
        · exact absurd hother hmissing
        · exact ⟨h, hother⟩
  | @keep _ name' value _ _ _ hfound _ ih | @var _ name' _ _ _ _ _ hfound _ _ ih =>
      have hpresent := Attribute.mem_names_of_named? hfound
      simp only [List.map_cons, List.mem_cons, ih, Attribute.static]
      constructor
      · rintro (rfl | h)
        · exact ⟨Or.inl rfl, hpresent⟩
        · exact ⟨Or.inr h.1, h.2⟩
      · rintro ⟨rfl | h, hother⟩
        · exact Or.inl rfl
        · exact Or.inr ⟨h, hother⟩

/-- If nothing was dropped, the shared attributes have the names of either element. -/
theorem Shares.mem_names_of_kept
    {element : String} {other attrs shared : List Attribute} {n : Nat} {notes : List Note}
    (h : Shares other n attrs shared notes)
    (hattrs : Attribute.Static attrs) (hother : Attribute.Static other)
    (hkept : (Attribute.pairing attrs other).warnings element = []) (name : String) :
    (name ∈ shared.map Attribute.name ↔ name ∈ attrs.map Attribute.name) ∧
      (name ∈ shared.map Attribute.name ↔ name ∈ other.map Attribute.name) := by
  have hnames := Attribute.mem_names_iff_of_kept name hattrs.2 hother.2 hkept
  rw [h.mem_names_iff, hnames]
  simp only [and_self]

/-- The common tree of a comparison covers both trees. -/
theorem Converges.covers
    {exact : Bool} {position : Position} {anchor other nodes : List Node} {notes : List Note}
    (h : Converges position anchor other nodes notes)
    (hkept : exact = true → warnings notes = []) :
    Node.CoversList exact nodes anchor ∧ Node.CoversList exact nodes other := by
  induction h with
  | nil => exact ⟨.nil, .nil⟩
  | keep hkeeps _ ih =>
      obtain ⟨ihAnchor, ihOther⟩ := ih hkept
      cases hkeeps with
      | doctype value => exact ⟨.take (.doctype value) ihAnchor, .take (.doctype value) ihOther⟩
      | text value => exact ⟨.take (.text value) ihAnchor, .take (.text value) ihOther⟩
      | comment value other =>
          exact ⟨.take (.comment value value) ihAnchor, .take (.comment value other) ihOther⟩
      | content => exact ⟨.take .content ihAnchor, .take .content ihOther⟩
  | @var position v w _ _ _ _ _ _ ih =>
      obtain ⟨ihAnchor, ihOther⟩ := ih hkept
      exact ⟨.take (.var _ v) ihAnchor, .take (.var _ w) ihOther⟩
  | @element _ name _ _ _ _ _ _ _ _ _ _ _ _ hattrs hother hshared _ _ ihInside ih =>
      simp only [warnings_append, warnings_map_warning, List.append_eq_nil_iff] at hkept
      obtain ⟨ihAnchor, ihOther⟩ := ih fun hexact => (hkept hexact).2
      obtain ⟨ihInsideAnchor, ihInsideOther⟩ := ihInside fun hexact => (hkept hexact).1.2
      have hnames : exact = true → ∀ other : String, _ ∧ _ := fun hexact other =>
        hshared.mem_names_of_kept hattrs hother (hkept hexact).1.1.2 other
      exact ⟨.take (.element name (fun hexact other => (hnames hexact other).1) ihInsideAnchor)
          ihAnchor,
        .take (.element name (fun hexact other => (hnames hexact other).2) ihInsideOther) ihOther⟩
  | lone hconcrete _ _ ih =>
      obtain ⟨ihAnchor, ihOther⟩ := ih hkept
      have hself := Node.coversList_singleton_iff.mp (Node.coversList_self exact hconcrete)
      exact ⟨.take (.conditional _ hself) ihAnchor, .skip _ ihOther⟩
  | extra hconcrete _ _ ih =>
      obtain ⟨ihAnchor, ihOther⟩ := ih hkept
      have hself := Node.coversList_singleton_iff.mp (Node.coversList_self exact hconcrete)
      exact ⟨.skip _ ihAnchor, .take (.conditional _ hself) ihOther⟩

end Comparison

end Stencil
