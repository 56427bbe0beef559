import Stencil.Proofs.Layout.Counting

/-!
# Normalization makes references distinct

Whatever the layout is, its references are distinct after normalization, at page level and within
every loop template (`distinctReferences_normalized`), and nothing but references is changed
(`erased_normalized`).  So normalization acts exactly on the layouts whose references are not
distinct yet, and a second one changes nothing (`uniqueness_normalized`).
-/

namespace Stencil

/-! ## Trees without their references -/

/-- The value with its reference left blank. -/
def AttributeValue.erased : AttributeValue → AttributeValue
  | .literal value => .literal value
  | .var _ => .var ""
  | .conditional _ => .conditional ""

/-- The attribute with its reference left blank. -/
def Attribute.erased (attr : Attribute) : Attribute :=
  { attr with value := attr.value.erased }

mutual

/-- The node with all references at and below it left blank, also those of loop templates. -/
def Node.erased : Node → Node
  | .element name attrs children =>
    .element name (attrs.map Attribute.erased) (Node.erasedList children)
  | .var _ => .var ""
  | .conditional _ child => .conditional "" child.erased
  | .markdown _ => .markdown ""
  | .loop _ template => .loop "" template.erased
  | .doctype value => .doctype value
  | .text value => .text value
  | .comment value => .comment value
  | .content => .content

/-- The tree with all references left blank. -/
def Node.erasedList : List Node → List Node
  | [] => []
  | node :: nodes => node.erased :: Node.erasedList nodes

end

/-- The layout with all references left blank. -/
def Layout.erased (layout : Layout) : Layout :=
  ⟨Node.erasedList layout.tree⟩

theorem Attribute.Renames.map_erased_eq
    {attrs renamed : List Attribute} (h : Renames attrs renamed) :
    renamed.map erased = attrs.map erased := by
  induction h with
  | nil => rfl
  | @cons a b _ _ hattr _ ih =>
      obtain ⟨name, value⟩ := a
      obtain ⟨other, renamedValue⟩ := b
      obtain ⟨rfl, hvalue⟩ := hattr
      have herased : renamedValue.erased = value.erased := by
        cases hvalue <;> rfl
      rw [List.map_cons, List.map_cons, ih, erased, erased, herased]

namespace Node

theorem Renames.erasedList_eq {nodes renamed : List Node} (h : Renames nodes renamed) :
    erasedList renamed = erasedList nodes := by
  induction h with
  | nil => rfl
  | same node _ ih => rw [erasedList, erasedList, ih]
  | element name hattrs _ _ ihChildren ih =>
      simp only [erasedList, erased, hattrs.map_erased_eq, ihChildren, ih]
  | var _ _ ih | markdown _ _ ih => simp only [erasedList, erased, ih]
  | conditional _ _ _ ihBelow ih | loop _ _ _ ihBelow ih =>
      simp only [erasedList, List.cons.injEq, and_true] at ihBelow
      simp only [erasedList, erased, ihBelow, ih]

/-! ## Loop templates -/

/-- The references of every loop template are distinct after renaming, whatever is in use around
the loop. -/
theorem everywhere_distinctTemplate_renameList (used : Namespace) (nodes : List Node) :
    Everywhere DistinctTemplate (renameList used nodes).1 := by
  induction nodes using Node.inductionOn generalizing used with
  | nil => exact everywhere_nil
  | doctype value nodes ih => exact everywhere_doctype.mpr ⟨trivial, ih used⟩
  | element name attrs children nodes ihChildren ih =>
      exact everywhere_element.mpr ⟨trivial, ihChildren _, ih _⟩
  | text value nodes ih => exact everywhere_text.mpr ⟨trivial, ih used⟩
  | comment value nodes ih => exact everywhere_comment.mpr ⟨trivial, ih used⟩
  | var reference nodes ih => exact everywhere_var.mpr ⟨trivial, ih _⟩
  | conditional reference child nodes ihChild ih =>
      exact everywhere_conditional.mpr ⟨trivial, ihChild _, ih _⟩
  | content nodes ih => exact everywhere_content.mpr ⟨trivial, ih used⟩
  | markdown reference nodes ih => exact everywhere_markdown.mpr ⟨trivial, ih _⟩
  | loop reference template nodes ihTemplate ih =>
      -- The template is renamed in a namespace of its own.
      have hdistinct := (reserves_renameList [] [template]).unused.1
      simp only [renameList, referencesList, List.append_nil] at hdistinct
      exact everywhere_loop.mpr ⟨hdistinct, ihTemplate [], ih _⟩

end Node

namespace Layout

theorem distinctReferences_normalized (layout : Layout) : layout.normalized.DistinctReferences where
  page := layout.references_normalized_nodup
  templates := Node.everywhere_distinctTemplate_renameList [] layout.tree

theorem erased_normalized (layout : Layout) : layout.normalized.erased = layout.erased :=
  congrArg mk layout.renames_normalized.erasedList_eq

/-- Normalization changes exactly the layouts with a repeated reference. -/
theorem normalized_eq_self_iff (layout : Layout) :
    layout.normalized = layout ↔ layout.DistinctReferences := by
  constructor
  · intro h
    rw [← h]
    exact layout.distinctReferences_normalized
  · exact normalized_eq_self

/-- Every search for an unused number ends, and so does the pass over the layout; its result is the
normalized layout.  There references are distinct in every namespace, each is the old one or the
old one with a number from two on, and all else is as before.  Only a layout with a repeated
reference is changed, so a second normalization changes nothing. -/
theorem uniqueness_normalized (layout : Layout) :
    (∀ used reference n, ∃ m, Counting.Search used reference n m) ∧
      (∀ tree, (∃ later, Node.Counted {} layout.tree tree later) ↔ tree = layout.normalized.tree) ∧
      layout.normalized.DistinctReferences ∧
      layout.normalized.erased = layout.erased ∧
      Node.Renames layout.tree layout.normalized.tree ∧
      (layout.normalized = layout ↔ layout.DistinctReferences) ∧
      layout.normalized.normalized = layout.normalized := by
  have hdistinct := layout.distinctReferences_normalized
  exact ⟨Counting.exists_search, Node.exists_counted_iff layout.tree, hdistinct,
    layout.erased_normalized, layout.renames_normalized, layout.normalized_eq_self_iff,
    normalized_eq_self hdistinct⟩

end Layout

end Stencil
