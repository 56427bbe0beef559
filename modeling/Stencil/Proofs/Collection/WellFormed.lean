import Stencil.Proofs.Collection.Pages
import Stencil.Proofs.Document.Projection
import Stencil.Proofs.Layout.WellFormed

/-!
# Inferred layouts are well-formed

The layout of a comparison is well-formed because its rules put a placeholder of the right kind at
every place and never a guard around a guard.  Taking in another document merges two well-formed
layouts and renames what occurs twice, so the layout is well-formed after every step of an
inference (`wellFormed_of_infer`).
-/

namespace Stencil

namespace Comparison

/-- Of the shared attributes no name occurs twice, and all are literals or variables. -/
theorem Shares.isSlot
    {other attrs shared : List Attribute} {n : Nat} {notes : List Note}
    (h : Shares other n attrs shared notes) :
    (shared.map Attribute.name).Sublist (attrs.map Attribute.name) ∧
      ∀ attr ∈ shared, attr.value.IsSlot := by
  induction h with
  | nil => exact ⟨List.Sublist.refl _, by simp⟩
  | drop _ _ ih => exact ⟨ih.1.cons _, ih.2⟩
  | keep _ _ ih =>
      refine ⟨ih.1.cons_cons _, ?_⟩
      rintro attr (_ | ⟨_, hattr⟩)
      · trivial
      · exact ih.2 attr hattr
  | @var n _ _ _ _ _ _ _ _ _ ih =>
      refine ⟨ih.1.cons_cons _, ?_⟩
      rintro attr (_ | ⟨_, hattr⟩)
      · exact .attr (n + 1)
      · exact ih.2 attr hattr

/-- The rules of a comparison only make slots of inferred layouts. -/
theorem Converges.everywhere_isSlot
    {position : Position} {anchor other nodes : List Node} {notes : List Note}
    (h : Converges position anchor other nodes notes) :
    Node.Everywhere Node.IsSlot nodes := by
  have hunguarded : ∀ node : Node, Node.Concrete [node] → node.kind ≠ .conditional := by
    intro node hconcrete
    have hplain := Node.isPlain_of_concrete_singleton hconcrete
    cases node <;> first | exact absurd hplain id | simp [Node.kind]
  induction h with
  | nil => exact Node.everywhere_nil
  | keep hkeeps _ ih => cases hkeeps <;> simpa [Node.IsSlot] using ih
  | @var position _ _ _ _ _ _ _ _ ih =>
      exact Node.everywhere_var.mpr ⟨.var (position.before.texts + 1), ih⟩
  | element hattrs _ hshared _ _ ihInside ih =>
      refine Node.everywhere_element.mpr ⟨⟨?_, hshared.isSlot.2⟩, ihInside, ih⟩
      exact hattrs.2.sublist hshared.isSlot.1
  | @lone position a _ _ _ _ hconcrete _ _ ih =>
      exact Node.everywhere_conditional.mpr
        ⟨⟨.shown (position.before.nodes + 1), hunguarded a hconcrete⟩,
          Node.everywhere_isSlot_of_concrete hconcrete, ih⟩
  | @extra position b _ _ _ _ hconcrete _ _ ih =>
      exact Node.everywhere_conditional.mpr
        ⟨⟨.extra position.parent position.child (position.insertions + 1), hunguarded b hconcrete⟩,
          Node.everywhere_isSlot_of_concrete hconcrete, ih⟩

end Comparison

/-- The layout of a comparison is well-formed. -/
theorem difference_wellFormed
    {anchor other : Document}
    (hanchor : Node.Concrete anchor.tree) (hother : Node.Concrete other.tree) :
    (anchor.difference other).layout.WellFormed where
  slots := by
    rw [difference_layout_eq_base hanchor hother]
    exact (Comparison.converges_compareTrees hanchor hother).everywhere_isSlot
  references := Layout.references_normalized_nodup _

/-- The layout is well-formed however many documents have been seen. -/
theorem Inference.wellFormed_after
    {anchor second : Document} {seen : List Document}
    (hanchor : Node.Concrete anchor.tree) (hsecond : Node.Concrete second.tree)
    (hseen : ∀ document ∈ seen, Node.Concrete document.tree) :
    (after anchor second seen).layout.WellFormed := by
  induction seen using List.reverseRecOn with
  | nil => exact difference_wellFormed hanchor hsecond
  | append_singleton seen document ih =>
      obtain ⟨hknown, hdocument⟩ := List.forall_mem_append.mp hseen
      rw [after_concat]
      exact (ih hknown).merge (difference_wellFormed hanchor (hdocument document (by simp)))

theorem Inference.wellFormed_of_concrete
    {anchor second : Document} {seen : List Document}
    (hconcrete : ∀ document ∈ anchor :: second :: seen, Node.Concrete document.tree) :
    (after anchor second seen).layout.WellFormed := by
  obtain ⟨hanchor, hsecond, hseen⟩ := by simpa only [List.forall_mem_cons] using hconcrete
  exact wellFormed_after hanchor hsecond hseen

/-- Two or more documents always have a layout, and after every document taken in the layout is
well-formed.  So the name of the layout itself is never a reference, and every reference can be
written where an identifier is asked for. -/
theorem wellFormed_of_infer
    {documents : List Document} (name : String)
    (hmany : 2 ≤ documents.length)
    (hconcrete : ∀ document ∈ documents, Node.Concrete document.tree) :
    ∃ anchor second rest collection, documents = anchor :: second :: rest ∧
      Collection.infer name documents = .ok collection ∧
      collection.layout = (Inference.after anchor second rest).layout ∧
      ∀ seen, seen <+: rest →
        let layout := (Inference.after anchor second seen).layout
        layout.WellFormed ∧
          ∀ reference ∈ layout.references, reference ≠ "layout" ∧ IsIdentifier reference := by
  obtain _ | ⟨anchor, _ | ⟨second, rest⟩⟩ := documents
  · simp at hmany
  · simp at hmany
  · have hinfer := Collection.infer_eq_after name anchor second rest
    refine ⟨anchor, second, rest, _, rfl, hinfer, rfl, ?_⟩
    intro seen hseen layout
    obtain ⟨hanchor, hsecond, hrest⟩ := by simpa only [List.forall_mem_cons] using hconcrete
    have hlayout : layout.WellFormed := Inference.wellFormed_after hanchor hsecond
      fun document hdocument => hrest document (hseen.subset hdocument)
    refine ⟨hlayout, fun reference hreference => ?_⟩
    obtain ⟨role, hrole⟩ := hlayout.exists_names hreference
    exact ⟨hrole.ne_layout, hrole.isIdentifier⟩

/-- A list that grows, an attribute that varies, and a text that one document lacks. -/
theorem wellFormed_of_infer_of_three_lists :
    let list (pathname style : String) (items : List Node) : Document :=
      { pathname := pathname, tree := [.element "ul" [.static "class" style] items] }
    let item (text : String) : Node := .element "li" [] [.text text]
    let documents := [list "a.html" "x" [item "1"], list "b.html" "y" [item "1", item "2"],
      list "c.html" "x" [.text "none", item "1", item "3"]]
    (2 ≤ documents.length ∧ ∀ document ∈ documents, Node.Concrete document.tree) ∧
      ∃ anchor second rest collection, documents = anchor :: second :: rest ∧
        Collection.infer "lists" documents = .ok collection ∧
        collection.layout = (Inference.after anchor second rest).layout ∧
        ∀ seen, seen <+: rest →
          let layout := (Inference.after anchor second seen).layout
          layout.WellFormed ∧
            ∀ reference ∈ layout.references, reference ≠ "layout" ∧ IsIdentifier reference := by
  intro list item documents
  have hmany : 2 ≤ documents.length := by decide
  have hconcrete : ∀ document ∈ documents, Node.Concrete document.tree := by decide
  exact ⟨⟨hmany, hconcrete⟩, wellFormed_of_infer "lists" hmany hconcrete⟩

end Stencil
