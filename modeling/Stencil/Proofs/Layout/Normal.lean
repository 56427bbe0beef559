import Stencil.Layout.Normal
import Stencil.Proofs.Node.Concrete

/-!
# Layouts with distinct references

Normalization only acts on references that occur more than once in one namespace.  A layout whose
references are distinct at page level and within every loop template is its own normal form
(`Layout.normalized_eq_self`).
-/

namespace Stencil

namespace Node

/-- The references of a loop template are distinct. -/
def DistinctTemplate : Node → Prop
  | .loop _ template => (references template).Nodup
  | _ => True

instance : DecidablePred DistinctTemplate
  | .loop _ template => inferInstanceAs (Decidable (references template).Nodup)
  | .doctype _ | .element .. | .text _ | .comment _ | .var _ | .conditional .. | .content
  | .markdown _ => isTrue trivial

end Node

/-- References are distinct at page level and within each loop template. -/
structure Layout.DistinctReferences (layout : Layout) : Prop where
  page : layout.references.Nodup
  templates : Node.Everywhere Node.DistinctTemplate layout.tree

/-! ## Unused references are kept -/

namespace Namespace

/-- The references are distinct, and none of them is in use. -/
def Unused (used : Namespace) (references : List String) : Prop :=
  references.Nodup ∧ ∀ reference ∈ references, reference ∉ used

theorem unused_cons {used : Namespace} {reference : String} {references : List String} :
    Unused used (reference :: references) ↔
      reference ∉ used ∧ Unused (reference :: used) references := by
  simp only [Unused, List.nodup_cons, List.mem_cons]
  constructor
  · rintro ⟨⟨hnew, hnodup⟩, hunused⟩
    refine ⟨hunused reference (Or.inl rfl), hnodup, ?_⟩
    rintro other hother (rfl | hmem)
    · exact hnew hother
    · exact hunused other (Or.inr hother) hmem
  · rintro ⟨hnew, hnodup, hunused⟩
    refine ⟨⟨fun hmem => hunused reference hmem (Or.inl rfl), hnodup⟩, ?_⟩
    rintro other (rfl | hother)
    · exact hnew
    · exact fun hmem => hunused other hother (Or.inr hmem)

theorem unused_append {used : Namespace} {references more : List String} :
    Unused used (references ++ more) ↔
      Unused used references ∧ Unused (references.reverse ++ used) more := by
  induction references generalizing used with
  | nil => simp [Unused]
  | cons reference references ih =>
      rw [List.cons_append, unused_cons, unused_cons, ih, and_assoc, List.reverse_cons,
        List.append_assoc]
      rfl

theorem reserve_of_notMem
    {used : Namespace} {reference : String} (hfresh : reference ∉ used) :
    used.reserve reference = (reference, reference :: used) := by
  simp [reserve, fresh, hfresh]

end Namespace

theorem Attribute.rename_eq_self
    {attrs : List Attribute} {used : Namespace}
    (hunused : used.Unused (references attrs)) :
    rename used attrs = (attrs, (references attrs).reverse ++ used) := by
  induction attrs generalizing used with
  | nil => rfl
  | cons attr attrs ih =>
      obtain ⟨name, value⟩ := attr
      cases value with
      | literal value => rw [rename, ih hunused]; rfl
      | var reference | conditional reference =>
          obtain ⟨hfresh, hrest⟩ := Namespace.unused_cons.mp hunused
          rw [rename, Namespace.reserve_of_notMem hfresh]
          simp only
          rw [ih hrest]
          simp [references, AttributeValue.reference?]

namespace Node

/-- Distinct references that are not in use are all kept. -/
theorem renameList_eq_self
    {nodes : List Node} {used : Namespace}
    (htemplates : Everywhere DistinctTemplate nodes)
    (hunused : used.Unused (referencesList nodes)) :
    renameList used nodes = (nodes, (referencesList nodes).reverse ++ used) := by
  induction nodes using Node.inductionOn generalizing used with
  | nil => rfl
  | doctype value nodes ih | text value nodes ih | comment value nodes ih | content nodes ih =>
      rw [renameList, rename]
      simp only
      rw [ih (everywhere_cons.mp htemplates).2 hunused]
      rfl
  | element name attrs children nodes ihChildren ih =>
      obtain ⟨-, hchildren, hnodes⟩ := everywhere_element.mp htemplates
      rw [referencesList, references, List.append_assoc, Namespace.unused_append,
        Namespace.unused_append] at hunused
      rw [renameList, rename, Attribute.rename_eq_self hunused.1]
      simp only
      rw [ihChildren hchildren hunused.2.1]
      simp only
      rw [ih hnodes hunused.2.2]
      simp [referencesList, references]
  | var reference nodes ih | markdown reference nodes ih =>
      obtain ⟨hfresh, hrest⟩ := Namespace.unused_cons.mp hunused
      rw [renameList, rename, Namespace.reserve_of_notMem hfresh]
      simp only
      rw [ih (everywhere_cons.mp htemplates).2 hrest]
      simp [referencesList, references]
  | conditional reference child nodes ihChild ih =>
      obtain ⟨-, hchild, hnodes⟩ := everywhere_conditional.mp htemplates
      rw [referencesList, references, List.cons_append, Namespace.unused_cons,
        Namespace.unused_append] at hunused
      have hone : referencesList [child] = references child := List.append_nil _
      have hkept := ihChild hchild (hone.symm ▸ hunused.2.1)
      simp only [renameList, hone, Prod.mk.injEq, List.cons.injEq, and_true] at hkept
      rw [renameList, rename, Namespace.reserve_of_notMem hunused.1]
      simp only
      rw [hkept.1, hkept.2, ih hnodes hunused.2.2]
      simp [referencesList, references]
  | loop reference template nodes ihTemplate ih =>
      obtain ⟨hdistinct, htemplate, hnodes⟩ := everywhere_loop.mp htemplates
      obtain ⟨hfresh, hrest⟩ := Namespace.unused_cons.mp hunused
      have hone : referencesList [template] = references template := List.append_nil _
      have hunused : Namespace.Unused [] (referencesList [template]) :=
        ⟨hone.symm ▸ hdistinct, by simp⟩
      have hkept := ihTemplate htemplate hunused
      simp only [renameList, Prod.mk.injEq, List.cons.injEq, and_true] at hkept
      rw [renameList, rename, Namespace.reserve_of_notMem hfresh]
      simp only
      rw [hkept.1, ih hnodes hrest]
      simp [referencesList, references]

end Node

/-- A layout with distinct references is its own normal form. -/
theorem Layout.normalized_eq_self
    {layout : Layout} (h : layout.DistinctReferences) :
    layout.normalized = layout := by
  rw [normalized, Node.renameList_eq_self h.templates ⟨h.page, by simp⟩]

end Stencil
