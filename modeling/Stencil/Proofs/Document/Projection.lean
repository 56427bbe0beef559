import Stencil.Proofs.Document.References
import Stencil.Proofs.Layout.Normal
import Stencil.Proofs.Page.Findings

/-!
# Projecting what was compared

A comparison matches two sibling lists with two cursors and goes by what is left on either side.
Projection matches one list against slots and goes by how many slots must still be filled.  On the
common tree of two documents both make the same decisions (`Converges.projectList_eq`): a node that
a slot of the other document could have taken would have been paired with it.  So projecting either
page onto the layout of a comparison finds the values that the comparison recorded
(`project_difference`).
-/

namespace Stencil

/-- The item of a side. -/
def Side.pick : Side → α → α → α
  | .first, a, _ => a
  | .second, _, b => b

@[simp] theorem Side.pick_self (side : Side) (a : α) : side.pick a a = a := by
  cases side <;> rfl

/-- Picking commutes with every function. -/
theorem Side.pick_map (side : Side) (f : α → β) (a b : α) :
    side.pick (f a) (f b) = f (side.pick a b) := by
  cases side <;> rfl

theorem Side.pick_cons (side : Side) (a b : α) (as bs : List α) :
    side.pick (a :: as) (b :: bs) = side.pick a b :: side.pick as bs := by
  cases side <;> rfl

namespace Comparison

/-! ## What a note says about one side -/

/-- The value that a note records for one side. -/
def Note.finding? (side : Side) : Note → Option Finding
  | .placeholder reference anchor other => some (.entry reference (side.pick anchor other))
  | .warning _ => none

/-- The values that notes record for one side. -/
def findings (side : Side) (notes : List Note) : List Finding :=
  notes.filterMap (Note.finding? side)

/-- The entries that notes make in the record of one side. -/
def noteEntries (side : Side) (notes : List Note) : List (String × Value) :=
  Finding.entries (findings side notes)

section Findings

variable (side : Side) (notes more : List Note)

@[simp] theorem findings_placeholder (reference : String) (anchor other : Value) :
    findings side (.placeholder reference anchor other :: notes) =
      .entry reference (side.pick anchor other) :: findings side notes :=
  rfl

@[simp] theorem findings_append :
    findings side (notes ++ more) = findings side notes ++ findings side more :=
  List.filterMap_append

@[simp] theorem findings_warnings (warnings : List Warning) :
    findings side (warnings.map .warning) = [] := by
  simp [findings, Note.finding?]

theorem references_noteEntries :
    (noteEntries side notes).map Prod.fst = noteReferences notes := by
  induction notes with
  | nil => rfl
  | cons note notes ih =>
      cases note with
      | placeholder reference anchor other => exact congrArg (reference :: ·) ih
      | warning found => exact ih

theorem anchorRecord_eq : anchorRecord notes = .ofEntries (noteEntries .first notes) := by
  rw [anchorRecord, noteEntries, Finding.entries, findings, List.filterMap_filterMap]
  congr 2
  funext note
  cases note <;> rfl

theorem otherRecord_eq : otherRecord notes = .ofEntries (noteEntries .second notes) := by
  rw [otherRecord, noteEntries, Finding.entries, findings, List.filterMap_filterMap]
  congr 2
  funext note
  cases note <;> rfl

end Findings

/-! ## Both passes make the same decisions -/

theorem Shares.project_eq
    {all other attrs shared : List Attribute} {n : Nat} {notes : List Note}
    (h : Shares other n attrs shared notes)
    (hattrs : ∀ attr ∈ attrs, attr ∈ all)
    (hall : Attribute.Static all) (hother : Attribute.Static other)
    (element : String) (side : Side) :
    Attribute.project element shared (side.pick all other) = findings side notes := by
  induction h with
  | nil => rfl
  | drop _ _ ih => exact ih fun attr hattr => hattrs attr (List.mem_cons_of_mem _ hattr)
  | keep _ _ ih => exact ih fun attr hattr => hattrs attr (List.mem_cons_of_mem _ hattr)
  | @var n name v w _ _ _ hpartner _ _ ih =>
      have hrest := ih fun attr hattr => hattrs attr (List.mem_cons_of_mem _ hattr)
      have hvalue : Attribute.lastLiteral? (side.pick all other) name = some (side.pick v w) := by
        cases side with
        | first => exact (Attribute.lastLiteral?_eq_some_iff hall).mpr (hattrs _ List.mem_cons_self)
        | second =>
            exact (Attribute.lastLiteral?_eq_some_iff hother).mpr (Attribute.mem_of_named? hpartner)
      rw [findings_placeholder, ← hrest, side.pick_map Value.text, Attribute.project,
        List.filterMap_cons]
      simp only [hvalue]
      rfl

theorem Keeps.equivalent_pick
    {a b : Node} (h : Keeps a b) (side : Side) : Node.equivalent a (side.pick a b) = true := by
  cases side with
  | first => exact Node.equivalent_refl a
  | second => cases h <;> simp [Side.pick, Node.equivalent, Node.core, Node.sameSlot, Node.kind]

theorem not_equivalent_of_not_corresponds
    {a b : Node} (h : corresponds a b = false) : Node.equivalent a b = false := by
  simp only [corresponds, Bool.or_eq_false_iff] at h
  exact h.2

/-- Every slot that must be filled stands for a node of either side. -/
theorem Converges.required_le
    {position : Position} {anchor other nodes : List Node} {notes : List Note}
    (h : Converges position anchor other nodes notes) (side : Side) :
    Node.required nodes ≤ (side.pick anchor other).length := by
  induction h with
  | nil => simp [Node.required]
  | @keep _ a b _ _ _ _ hkeeps _ ih =>
      have hfilled : a.isOptional = false := by cases hkeeps <;> rfl
      simp only [Node.required_cons, hfilled, side.pick_cons, List.length_cons]
      simpa using ih
  | var _ _ ih => simpa [Node.required_cons, Node.isOptional, side.pick_cons] using ih
  | element _ _ _ _ _ _ ih =>
      simpa [Node.required_cons, Node.isOptional, side.pick_cons] using ih
  | lone _ _ _ ih | extra _ _ _ ih =>
      rw [Node.required_cons]
      cases side with
      | first => simp [Node.isOptional, Side.pick] at ih ⊢; omega
      | second => simp [Node.isOptional, Side.pick] at ih ⊢; omega

/-- Projecting the siblings of one side onto the common siblings finds what was noted. -/
theorem Converges.projectList_eq
    {position : Position} {anchor other nodes : List Node} {notes : List Note}
    (h : Converges position anchor other nodes notes) (side : Side) :
    Node.projectList nodes (side.pick anchor other) = findings side notes := by
  induction h with
  | nil => cases side <;> rfl
  | @keep _ a b as bs nodes notes hkeeps _ ih =>
      have hfilled : a.isOptional = false := by cases hkeeps <;> rfl
      have hnothing : a.project (side.pick a b) = [] := by
        cases hkeeps <;> cases side <;> rfl
      rw [side.pick_cons, Node.projectList_cons_of_accepts hfilled
        (Node.accepts_of_equivalent (hkeeps.equivalent_pick side)), hnothing, ih]
      rfl
  | @var _ v w _ _ _ _ _ _ ih =>
      rw [side.pick_cons, side.pick_map Node.text, Node.projectList_cons_of_accepts rfl rfl, ih,
        findings_placeholder, side.pick_map Value.text]
      rfl
  | @element _ name attrs otherAttrs _ children otherChildren _ _ _ _ _ _ _
      hattrs hother hshared _ _ ihInside ih =>
      have helement : side.pick (Node.element name attrs children)
            (.element name otherAttrs otherChildren) =
          .element name (side.pick attrs otherAttrs) (side.pick children otherChildren) := by
        cases side <;> rfl
      have haccepts : ∀ slotAttrs slots concreteAttrs concrete,
          Node.accepts (.element name slotAttrs slots) (.element name concreteAttrs concrete) =
            true := by
        intro slotAttrs slots concreteAttrs concrete
        apply Node.accepts_of_equivalent
        simp [Node.equivalent, Node.core, Node.sameSlot]
      rw [side.pick_cons, helement, Node.projectList_cons_of_accepts rfl (haccepts _ _ _ _),
        Node.project, hshared.project_eq (fun _ => id) hattrs hother, ihInside, ih]
      simp
  | @lone _ a as bs nodes _ hconcrete hlone hrest ih =>
      have hplain := Node.isPlain_of_concrete_singleton hconcrete
      cases side with
      | first =>
          have hspare : Node.required nodes ≤ as.length := hrest.required_le .first
          rw [Side.pick, Node.projectList_conditional_of_accepts hspare (Node.accepts_self a),
            Node.project_self hconcrete, List.nil_append]
          exact congrArg _ ih
      | second =>
          have hrefuses : ∀ b ∈ bs.head?, Node.accepts a b = false := by
            intro b hb
            rw [Node.accepts_of_kind_ne_markdown (Node.kind_ne_markdown_of_isPlain hplain)]
            exact not_equivalent_of_not_corresponds (hlone b hb)
          rw [Side.pick, Node.projectList_conditional_of_not_accepts hrefuses]
          exact congrArg _ ih
  | @extra _ b as bs nodes _ hconcrete hlone hrest ih =>
      have hplain := Node.isPlain_of_concrete_singleton hconcrete
      cases side with
      | first =>
          have hrefuses : ∀ a ∈ as.head?, Node.accepts b a = false := by
            intro a ha
            rw [Node.accepts_of_kind_ne_markdown (Node.kind_ne_markdown_of_isPlain hplain),
              Node.equivalent_comm]
            exact not_equivalent_of_not_corresponds (hlone a ha)
          rw [Side.pick, Node.projectList_conditional_of_not_accepts hrefuses]
          exact congrArg _ ih
      | second =>
          have hspare : Node.required nodes ≤ bs.length := hrest.required_le .second
          rw [Side.pick, Node.projectList_conditional_of_accepts hspare (Node.accepts_self b),
            Node.project_self hconcrete, List.nil_append]
          exact congrArg _ ih

end Comparison

/-! ## The layout of a comparison -/

theorem Comparison.Converges.everywhere_distinctTemplate
    {position : Position} {anchor other nodes : List Node} {notes : List Note}
    (h : Converges position anchor other nodes notes) :
    Node.Everywhere Node.DistinctTemplate nodes := by
  have hplain : ∀ node, Node.IsPlain node → Node.DistinctTemplate node := by
    intro node hnode
    cases node <;> simp_all [Node.IsPlain, Node.DistinctTemplate]
  induction h with
  | nil => exact Node.everywhere_nil
  | keep hkeeps _ ih => cases hkeeps <;> simpa [Node.DistinctTemplate] using ih
  | var _ _ ih => simpa [Node.DistinctTemplate] using ih
  | element _ _ _ _ _ ihInside ih => exact Node.everywhere_element.mpr ⟨trivial, ihInside, ih⟩
  | lone hconcrete _ _ ih | extra hconcrete _ _ ih =>
      exact Node.everywhere_conditional.mpr
        ⟨trivial, fun node hnode => hplain node (hconcrete node hnode), ih⟩

section Difference

variable {anchor other : Document}

theorem difference_distinctReferences
    (hanchor : Node.Concrete anchor.tree) (hother : Node.Concrete other.tree) :
    (anchor.difference other).base.DistinctReferences where
  page := Comparison.references_compareTrees_nodup hanchor hother
  templates := (Comparison.converges_compareTrees hanchor hother).everywhere_distinctTemplate

/-- The references of a comparison are distinct from the outset: normalization renames nothing. -/
theorem difference_layout_eq_base
    (hanchor : Node.Concrete anchor.tree) (hother : Node.Concrete other.tree) :
    (anchor.difference other).layout = (anchor.difference other).base :=
  Layout.normalized_eq_self (difference_distinctReferences hanchor hother)

/-- The page of a side of a comparison. -/
def Difference.page (difference : Difference) (side : Side) : Page :=
  side.pick difference.anchor difference.other

theorem findings_difference
    (hanchor : Node.Concrete anchor.tree) (hother : Node.Concrete other.tree) (side : Side) :
    ((anchor.difference other).page side).findings (anchor.difference other).layout =
      Comparison.findings side (Comparison.compareTrees anchor.tree other.tree).notes := by
  rw [difference_layout_eq_base hanchor hother]
  have h := (Comparison.converges_compareTrees hanchor hother).projectList_eq side
  cases side <;> exact h

theorem data_difference (side : Side) :
    ((anchor.difference other).page side).data = .ofEntries
      (Comparison.noteEntries side (Comparison.compareTrees anchor.tree other.tree).notes) := by
  cases side with
  | first => exact Comparison.anchorRecord_eq _
  | second => exact Comparison.otherRecord_eq _

end Difference

end Stencil
