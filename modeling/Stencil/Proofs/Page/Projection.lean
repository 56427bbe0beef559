import Stencil.Proofs.Attribute.Pairing

/-!
# What a slot takes

How projection meets the next concrete node, slot by slot, and how slots relate to concrete nodes:
the number of slots that must be filled is counted by `required`, sharing a slot is reflexive and
symmetric, and a concrete tree seen as a layout finds nothing in itself (`projectList_self`).
-/

namespace Stencil

/-! ## Sharing a slot -/

namespace Node

theorem sameSlot_comm (a b : Node) : sameSlot a b = sameSlot b a := by
  cases a <;> cases b <;> simp [sameSlot, kind, Bool.beq_comm]

theorem equivalent_comm (a b : Node) : equivalent a b = equivalent b a :=
  sameSlot_comm a.core b.core

theorem equivalent_refl (a : Node) : equivalent a a = true := by
  rw [equivalent]
  cases a.core <;> simp [sameSlot]

theorem accepts_of_equivalent {slot node : Node} (h : equivalent slot node = true) :
    accepts slot node = true := by
  simp [accepts, h]

theorem accepts_self (node : Node) : accepts node node = true :=
  accepts_of_equivalent (equivalent_refl node)

theorem accepts_of_kind_ne_markdown {slot node : Node} (h : slot.kind ≠ .markdown) :
    accepts slot node = equivalent slot node := by
  simp [accepts, h]

theorem isOptional_of_isPlain {node : Node} (h : node.IsPlain) : node.isOptional = false := by
  cases node <;> simp_all [isOptional, IsPlain]

theorem kind_ne_markdown_of_isPlain {node : Node} (h : node.IsPlain) : node.kind ≠ .markdown := by
  cases node <;> simp_all [kind, IsPlain]

theorem isPlain_of_concrete_singleton {node : Node} (h : Concrete [node]) : node.IsPlain :=
  everywhere_head h

/-! ## Slots that must be filled -/

theorem required_cons (slot : Node) (slots : List Node) :
    required (slot :: slots) = required slots + if slot.isOptional then 0 else 1 := by
  cases h : slot.isOptional <;> simp [required, h]

theorem projectList_of_not_isOptional
    {slot : Node} (h : slot.isOptional = false) (slots concrete : List Node) :
    projectList (slot :: slots) concrete =
      fillSlot slot slot.project slots.length (projectList slots) concrete := by
  cases slot <;> first | rfl | simp [isOptional] at h

/-- A slot that must be filled takes the next node if it accepts it. -/
theorem projectList_cons_of_accepts
    {slot node : Node} {slots nodes : List Node}
    (hslot : slot.isOptional = false) (haccepts : accepts slot node = true) :
    projectList (slot :: slots) (node :: nodes) =
      slot.project node ++ projectList slots nodes := by
  rw [projectList_of_not_isOptional hslot, fillSlot, if_pos haccepts]

/-! ## Conditionals -/

/-- A conditional takes the next node if it accepts it and enough nodes stay. -/
theorem projectList_conditional_of_accepts
    {reference : String} {child node : Node} {slots nodes : List Node}
    (hspare : required slots ≤ nodes.length) (haccepts : accepts child node = true) :
    projectList (.conditional reference child :: slots) (node :: nodes) =
      child.project node ++ .entry reference (.flag true) :: projectList slots nodes := by
  rw [projectList, fillConditional, if_pos (by simp [hspare, haccepts])]

/-- A conditional takes nothing if it does not accept the next node. -/
theorem projectList_conditional_of_not_accepts
    {reference : String} {child : Node} {slots concrete : List Node}
    (h : ∀ node ∈ concrete.head?, accepts child node = false) :
    projectList (.conditional reference child :: slots) concrete =
      .entry reference (.flag false) :: projectList slots concrete := by
  cases concrete with
  | nil => rw [projectList, fillConditional]
  | cons node nodes => rw [projectList, fillConditional, if_neg (by simp [h node rfl])]

/-! ## Concrete trees as layouts -/

theorem project_attributes_of_literal
    {attrs : List Attribute} (element : String) (concrete : List Attribute)
    (hliteral : ∀ attr ∈ attrs, attr.value.isPlaceholder = false) :
    Attribute.project element attrs concrete = [] := by
  apply List.filterMap_eq_nil_iff.mpr
  intro attr hattr
  obtain ⟨value, hvalue⟩ := Attribute.eq_static_of_not_isPlaceholder (hliteral attr hattr)
  rw [hvalue]
  rfl

/-- A concrete tree fits itself, and there is nothing to find out. -/
theorem projectList_self {nodes : List Node} (hconcrete : Concrete nodes) :
    projectList nodes nodes = [] := by
  induction hconcrete using Concrete.inductionOn with
  | nil => rfl
  | element name attrs children nodes _ hattrs _ ihChildren _ ih =>
      rw [projectList_cons_of_accepts rfl (accepts_self _), ih, project,
        ihChildren, project_attributes_of_literal name attrs hattrs.1]
      rfl
  | doctype _ _ _ _ ih | text _ _ _ _ ih | comment _ _ _ _ ih | content _ _ _ ih =>
      rw [projectList_cons_of_accepts rfl (accepts_self _), ih]
      rfl

theorem project_self {node : Node} (hconcrete : Concrete [node]) : node.project node = [] := by
  have h := projectList_self hconcrete
  rw [projectList_cons_of_accepts
    (isOptional_of_isPlain (isPlain_of_concrete_singleton hconcrete)) (accepts_self _)] at h
  exact List.append_eq_nil_iff.mp h |>.1

end Node

end Stencil
