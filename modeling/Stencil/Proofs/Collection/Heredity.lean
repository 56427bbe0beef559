import Stencil.Proofs.Collection.WellFormed

/-!
# What layouts inherit from documents

An inference makes no elements of its own: every element of a layout comes from an element of a
document, and has at most the attribute names of that one.  So a property of nodes that
placeholders have and elements keep when attributes are lost or vary holds everywhere in an inferred
layout, if it holds everywhere in the documents (`Inference.inherits_after`).
-/

namespace Stencil

/-- Placeholders have the property, and elements keep it when attributes are lost or vary and when
their children change. -/
structure Node.Hereditary (p : Node → Prop) : Prop where
  element : ∀ {name : String} {attrs other : List Attribute} {children : List Node}
    (otherChildren : List Node), p (.element name attrs children) →
      other.map Attribute.name ⊆ attrs.map Attribute.name →
      p (.element name other otherChildren)
  var : ∀ reference : String, p (.var reference)
  conditional : ∀ (reference : String) (child : Node), p (.conditional reference child)

section Heredity

variable {p : Node → Prop}

/-- Comparing keeps the property. -/
theorem Comparison.Converges.everywhere
    (hp : Node.Hereditary p)
    {position : Position} {anchor other nodes : List Node} {notes : List Note}
    (h : Converges position anchor other nodes notes)
    (hanchor : Node.Everywhere p anchor) (hother : Node.Everywhere p other) :
    Node.Everywhere p nodes := by
  induction h with
  | nil => exact Node.everywhere_nil
  | keep _ _ ih =>
      obtain ⟨ha, has⟩ := Node.everywhere_cons.mp hanchor
      exact Node.everywhere_cons.mpr ⟨ha, ih has (Node.everywhere_cons.mp hother).2⟩
  | var _ _ ih =>
      have has := (Node.everywhere_cons.mp hanchor).2
      exact Node.everywhere_var.mpr ⟨hp.var _, ih has (Node.everywhere_cons.mp hother).2⟩
  | element _ _ hshared _ _ ihInside ih =>
      obtain ⟨helement, hchildren, has⟩ := Node.everywhere_element.mp hanchor
      obtain ⟨-, hotherChildren, hbs⟩ := Node.everywhere_element.mp hother
      refine Node.everywhere_element.mpr ⟨?_, ihInside hchildren hotherChildren, ih has hbs⟩
      exact hp.element _ helement hshared.isSlot.1.subset
  | lone _ _ _ ih =>
      obtain ⟨ha, has⟩ := Node.everywhere_cons.mp hanchor
      exact Node.everywhere_conditional.mpr ⟨hp.conditional _ _, ha, ih has hother⟩
  | extra _ _ _ ih =>
      obtain ⟨hb, hbs⟩ := Node.everywhere_cons.mp hother
      exact Node.everywhere_conditional.mpr ⟨hp.conditional _ _, hb, ih hanchor hbs⟩

namespace Node

/-- Renaming keeps the property. -/
theorem Renames.everywhere
    (hp : Hereditary p) {nodes renamed : List Node} (h : Renames nodes renamed)
    (hslots : Everywhere IsSlot nodes) (hnodes : Everywhere p nodes) :
    Everywhere p renamed := by
  induction h with
  | nil => exact everywhere_nil
  | same node _ ih =>
      obtain ⟨hnode, hrest⟩ := everywhere_cons.mp hnodes
      exact everywhere_cons.mpr ⟨hnode, ih (everywhere_cons.mp hslots).2 hrest⟩
  | element name hattrs _ _ ihChildren ih =>
      obtain ⟨helement, hchildren, hrest⟩ := everywhere_element.mp hnodes
      obtain ⟨-, hslotsInside, hslotsRest⟩ := everywhere_element.mp hslots
      refine everywhere_element.mpr
        ⟨hp.element _ helement ?_, ihChildren hslotsInside hchildren, ih hslotsRest hrest⟩
      rw [hattrs.names_eq]
      exact List.Subset.refl _
  | var _ _ ih =>
      exact everywhere_var.mpr
        ⟨hp.var _, ih (everywhere_cons.mp hslots).2 (everywhere_cons.mp hnodes).2⟩
  | conditional _ _ _ ihChild ih =>
      obtain ⟨-, hchild, hrest⟩ := everywhere_conditional.mp hnodes
      obtain ⟨-, hslotsChild, hslotsRest⟩ := everywhere_conditional.mp hslots
      exact everywhere_conditional.mpr
        ⟨hp.conditional _ _, ihChild hslotsChild hchild, ih hslotsRest hrest⟩
  | markdown _ _ _ => exact absurd (everywhere_markdown.mp hslots).1 id
  | loop _ _ _ _ _ => exact absurd (everywhere_loop.mp hslots).1 id

theorem everywhere_and {q : Node → Prop} {nodes : List Node} :
    Everywhere (fun node => q node ∧ p node) nodes ↔ Everywhere q nodes ∧ Everywhere p nodes := by
  simp only [Everywhere, imp_and, forall_and]

/-- Merging slots keeps the property. -/
theorem mergeClosed_of_hereditary (hp : Hereditary p) :
    MergeClosed fun node => IsSlot node ∧ p node where
  flat h := mergeClosed_isSlot.flat h.1
  conditional other h hother :=
    ⟨mergeClosed_isSlot.conditional other h.1 hother, hp.conditional _ other⟩
  element merged h hother := by
    refine ⟨mergeClosed_isSlot.element merged h.1 hother.1, hp.element merged h.2 ?_⟩
    rw [Attribute.names_reconcile h.1.1 hother.1.1]
    exact List.filter_sublist.subset

end Node

/-! ## The run of an inference -/

/-- The layout of a comparison inherits the property. -/
theorem inherits_difference
    (hp : Node.Hereditary p) {anchor other : Document}
    (hanchor : Node.Concrete anchor.tree) (hother : Node.Concrete other.tree)
    (hpAnchor : Node.Everywhere p anchor.tree) (hpOther : Node.Everywhere p other.tree) :
    Node.Everywhere p (anchor.difference other).layout.tree := by
  rw [difference_layout_eq_base hanchor hother]
  exact (Comparison.converges_compareTrees hanchor hother).everywhere hp hpAnchor hpOther

/-- The layout inherits the property however many documents have been seen. -/
theorem Inference.inherits_after
    (hp : Node.Hereditary p) {anchor second : Document} {seen : List Document}
    (hconcrete : ∀ document ∈ anchor :: second :: seen, Node.Concrete document.tree)
    (hdocuments : ∀ document ∈ anchor :: second :: seen, Node.Everywhere p document.tree) :
    Node.Everywhere p (after anchor second seen).layout.tree := by
  simp only [List.forall_mem_cons] at hconcrete hdocuments
  obtain ⟨hanchor, hsecond, hseen⟩ := hconcrete
  obtain ⟨hpAnchor, hpSecond, hpSeen⟩ := hdocuments
  induction seen using List.reverseRecOn with
  | nil => exact inherits_difference hp hanchor hsecond hpAnchor hpSecond
  | append_singleton seen document ih =>
      obtain ⟨hknown, hdocument⟩ := List.forall_mem_append.mp hseen
      obtain ⟨hpKnown, hpDocument⟩ := List.forall_mem_append.mp hpSeen
      have hnew := hdocument document List.mem_cons_self
      have hpNew := hpDocument document List.mem_cons_self
      rw [after_concat]
      have hlayout := wellFormed_after hanchor hsecond hknown
      have hnext := difference_wellFormed hanchor hnew
      have hmerged := (Node.merges_align _ _).everywhere (Node.mergeClosed_of_hereditary hp)
        (Node.everywhere_and.mpr ⟨hlayout.slots, ih hknown hpKnown⟩)
        (Node.everywhere_and.mpr
          ⟨hnext.slots, inherits_difference hp hanchor hnew hpAnchor hpNew⟩)
      obtain ⟨hslots, hinherited⟩ := Node.everywhere_and.mp hmerged
      exact (Layout.renames_normalized _).everywhere hp hslots hinherited

end Heredity

end Stencil
