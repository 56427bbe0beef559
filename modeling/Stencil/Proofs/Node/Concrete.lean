import Mathlib.Data.List.Nodup
import Stencil.Document
import Stencil.Page.Rendering

/-!
# Concrete trees

The trees of documents, before any layout is inferred: no placeholders, and in every element
literal attributes under distinct names.  A concrete tree is rendered to itself with the body in
place of every content node (`renderList_of_concrete`), whatever the values of the page are.

`Node.inductionOn` and `Node.Concrete.inductionOn` are inductions on a list of siblings that also
give the hypothesis for what is below the first sibling.
-/

namespace Stencil

/-! ## Literal attributes -/

namespace Attribute

/-- Literal attributes under distinct names. -/
def Static (attrs : List Attribute) : Prop :=
  (∀ attr ∈ attrs, attr.value.isPlaceholder = false) ∧ (attrs.map Attribute.name).Nodup

instance (attrs : List Attribute) : Decidable (Static attrs) :=
  inferInstanceAs (Decidable (_ ∧ _))

theorem eq_static_of_not_isPlaceholder
    {attr : Attribute} (hliteral : attr.value.isPlaceholder = false) :
    ∃ value, attr = static attr.name value := by
  obtain ⟨name, value⟩ := attr
  cases value with
  | literal value => exact ⟨value, rfl⟩
  | var reference => simp [AttributeValue.isPlaceholder] at hliteral
  | conditional reference => simp [AttributeValue.isPlaceholder] at hliteral

theorem Static.eq_static
    {attrs : List Attribute} {attr : Attribute}
    (hstatic : Static attrs) (hattr : attr ∈ attrs) :
    ∃ value, attr = static attr.name value :=
  eq_static_of_not_isPlaceholder (hstatic.1 attr hattr)

/-- An attribute list with distinct names has one attribute of each name. -/
theorem eq_of_name_eq
    {attrs : List Attribute} {a b : Attribute}
    (hdistinct : (attrs.map Attribute.name).Nodup)
    (ha : a ∈ attrs) (hb : b ∈ attrs) (hname : a.name = b.name) :
    a = b :=
  List.inj_on_of_nodup_map hdistinct ha hb hname

/-- Literal attributes are rendered as they are. -/
theorem filterMap_render?_of_literal
    {attrs : List Attribute} (scope : Record)
    (hliteral : ∀ attr ∈ attrs, attr.value.isPlaceholder = false) :
    attrs.filterMap (render? scope) = attrs := by
  induction attrs with
  | nil => rfl
  | cons attr attrs ih =>
      obtain ⟨value, hvalue⟩ :=
        eq_static_of_not_isPlaceholder (hliteral attr List.mem_cons_self)
      have hrest := ih fun other hother => hliteral other (List.mem_cons_of_mem _ hother)
      have hhead : render? scope attr = some attr := by
        rw [hvalue]
        rfl
      rw [List.filterMap_cons, hhead, hrest]

/-- Literal attributes have no references. -/
theorem references_of_literal
    {attrs : List Attribute}
    (hliteral : ∀ attr ∈ attrs, attr.value.isPlaceholder = false) :
    references attrs = [] := by
  apply List.filterMap_eq_nil_iff.mpr
  intro attr hattr
  obtain ⟨value, hvalue⟩ := eq_static_of_not_isPlaceholder (hliteral attr hattr)
  rw [hvalue]
  rfl

end Attribute

namespace Node

/-! ## Induction on sibling lists -/

theorem inductionOn
    {motive : List Node → Prop}
    (nil : motive [])
    (doctype : ∀ value nodes, motive nodes → motive (.doctype value :: nodes))
    (element : ∀ name attrs children nodes, motive children → motive nodes →
      motive (.element name attrs children :: nodes))
    (text : ∀ value nodes, motive nodes → motive (.text value :: nodes))
    (comment : ∀ value nodes, motive nodes → motive (.comment value :: nodes))
    (var : ∀ reference nodes, motive nodes → motive (.var reference :: nodes))
    (conditional : ∀ reference child nodes, motive [child] → motive nodes →
      motive (.conditional reference child :: nodes))
    (content : ∀ nodes, motive nodes → motive (.content :: nodes))
    (markdown : ∀ reference nodes, motive nodes → motive (.markdown reference :: nodes))
    (loop : ∀ reference template nodes, motive [template] → motive nodes →
      motive (.loop reference template :: nodes))
    (nodes : List Node) : motive nodes :=
  @Node.rec_1 (fun node => ∀ nodes, motive nodes → motive (node :: nodes)) motive
    doctype
    (fun name attrs children ih nodes => element name attrs children nodes ih)
    text comment var
    (fun reference child ih nodes => conditional reference child nodes (ih [] nil))
    content markdown
    (fun reference template ih nodes => loop reference template nodes (ih [] nil))
    nil (fun _ nodes hnode hnodes => hnode nodes hnodes) nodes

/-! ## Properties of all nodes of a tree -/

/-- The property holds of all nodes of a tree, at every depth. -/
def Everywhere (p : Node → Prop) (nodes : List Node) : Prop :=
  ∀ node ∈ preorderList nodes, p node

instance {p : Node → Prop} [DecidablePred p] (nodes : List Node) :
    Decidable (Everywhere p nodes) :=
  inferInstanceAs (Decidable (∀ node ∈ preorderList nodes, p node))

section Everywhere

variable {p : Node → Prop} {nodes : List Node}

@[simp] theorem everywhere_nil : Everywhere p [] := by
  simp [Everywhere, preorderList]

theorem everywhere_cons {node : Node} :
    Everywhere p (node :: nodes) ↔ Everywhere p [node] ∧ Everywhere p nodes := by
  simp only [Everywhere, preorderList, List.append_nil, List.mem_append, or_imp, forall_and]

theorem everywhere_head {node : Node} (h : Everywhere p (node :: nodes)) : p node :=
  h node (by cases node <;> simp [preorderList, preorder])

theorem everywhere_append {more : List Node} :
    Everywhere p (nodes ++ more) ↔ Everywhere p nodes ∧ Everywhere p more := by
  induction nodes with
  | nil => simp
  | cons node nodes ih =>
      rw [List.cons_append, everywhere_cons, ih, @everywhere_cons p nodes, and_assoc]

theorem everywhere_singleton_of_mem {node : Node} (h : Everywhere p nodes) (hnode : node ∈ nodes) :
    Everywhere p [node] := by
  obtain ⟨before, after, rfl⟩ := List.append_of_mem hnode
  exact (everywhere_cons.mp (everywhere_append.mp h).2).1

@[simp] theorem everywhere_element {name : String} {attrs : List Attribute} {children : List Node} :
    Everywhere p (.element name attrs children :: nodes) ↔
      p (.element name attrs children) ∧ Everywhere p children ∧ Everywhere p nodes := by
  simp only [Everywhere, preorderList, preorder, List.cons_append, List.mem_cons, List.mem_append,
    or_imp, forall_and, forall_eq]

@[simp] theorem everywhere_conditional {reference : String} {child : Node} :
    Everywhere p (.conditional reference child :: nodes) ↔
      p (.conditional reference child) ∧ Everywhere p [child] ∧ Everywhere p nodes := by
  simp only [Everywhere, preorderList, preorder, List.cons_append, List.append_nil, List.mem_cons,
    List.mem_append, or_imp, forall_and, forall_eq]

@[simp] theorem everywhere_loop {reference : String} {template : Node} :
    Everywhere p (.loop reference template :: nodes) ↔
      p (.loop reference template) ∧ Everywhere p [template] ∧ Everywhere p nodes := by
  simp only [Everywhere, preorderList, preorder, List.cons_append, List.append_nil, List.mem_cons,
    List.mem_append, or_imp, forall_and, forall_eq]

/-- A node without anything below it contributes only itself. -/
theorem everywhere_leaf {node : Node} (hleaf : node.preorder = [node]) :
    Everywhere p (node :: nodes) ↔ p node ∧ Everywhere p nodes := by
  simp only [Everywhere, preorderList, hleaf, List.cons_append, List.nil_append, List.mem_cons,
    or_imp, forall_and, forall_eq]

@[simp] theorem everywhere_doctype {value : String} :
    Everywhere p (.doctype value :: nodes) ↔ p (.doctype value) ∧ Everywhere p nodes :=
  everywhere_leaf rfl

@[simp] theorem everywhere_text {value : String} :
    Everywhere p (.text value :: nodes) ↔ p (.text value) ∧ Everywhere p nodes :=
  everywhere_leaf rfl

@[simp] theorem everywhere_comment {value : String} :
    Everywhere p (.comment value :: nodes) ↔ p (.comment value) ∧ Everywhere p nodes :=
  everywhere_leaf rfl

@[simp] theorem everywhere_var {reference : String} :
    Everywhere p (.var reference :: nodes) ↔ p (.var reference) ∧ Everywhere p nodes :=
  everywhere_leaf rfl

@[simp] theorem everywhere_content :
    Everywhere p (.content :: nodes) ↔ p .content ∧ Everywhere p nodes :=
  everywhere_leaf rfl

@[simp] theorem everywhere_markdown {reference : String} :
    Everywhere p (.markdown reference :: nodes) ↔ p (.markdown reference) ∧ Everywhere p nodes :=
  everywhere_leaf rfl

end Everywhere

/-! ## Concrete trees -/

/-- A node that documents are made of. -/
def IsPlain : Node → Prop
  | .doctype _ | .text _ | .comment _ | .content => True
  | .element _ attrs _ => Attribute.Static attrs
  | .var _ | .conditional .. | .markdown _ | .loop .. => False

instance : DecidablePred IsPlain
  | .doctype _ | .text _ | .comment _ | .content => isTrue trivial
  | .element _ attrs _ => inferInstanceAs (Decidable (Attribute.Static attrs))
  | .var _ | .conditional .. | .markdown _ | .loop .. => isFalse id

/-- A tree without placeholders, with distinct attribute names in every element. -/
abbrev Concrete (nodes : List Node) : Prop :=
  Everywhere IsPlain nodes

theorem Concrete.inductionOn
    {motive : ∀ nodes : List Node, Concrete nodes → Prop}
    (nil : motive [] everywhere_nil)
    (doctype : ∀ value nodes h, (hnodes : Concrete nodes) → motive nodes hnodes →
      motive (.doctype value :: nodes) h)
    (element : ∀ name attrs children nodes h, Attribute.Static attrs →
      (hchildren : Concrete children) → motive children hchildren →
      (hnodes : Concrete nodes) → motive nodes hnodes →
      motive (.element name attrs children :: nodes) h)
    (text : ∀ value nodes h, (hnodes : Concrete nodes) → motive nodes hnodes →
      motive (.text value :: nodes) h)
    (comment : ∀ value nodes h, (hnodes : Concrete nodes) → motive nodes hnodes →
      motive (.comment value :: nodes) h)
    (content : ∀ nodes h, (hnodes : Concrete nodes) → motive nodes hnodes →
      motive (.content :: nodes) h)
    {nodes : List Node} (hconcrete : Concrete nodes) : motive nodes hconcrete := by
  induction nodes using Node.inductionOn with
  | nil => exact nil
  | doctype value nodes ih =>
      have hnodes := (everywhere_doctype.mp hconcrete).2
      exact doctype value nodes hconcrete hnodes (ih hnodes)
  | element name attrs children nodes ihChildren ih =>
      obtain ⟨hattrs, hchildren, hnodes⟩ := everywhere_element.mp hconcrete
      exact element name attrs children nodes hconcrete hattrs hchildren (ihChildren hchildren)
        hnodes (ih hnodes)
  | text value nodes ih =>
      have hnodes := (everywhere_text.mp hconcrete).2
      exact text value nodes hconcrete hnodes (ih hnodes)
  | comment value nodes ih =>
      have hnodes := (everywhere_comment.mp hconcrete).2
      exact comment value nodes hconcrete hnodes (ih hnodes)
  | content nodes ih =>
      have hnodes := (everywhere_content.mp hconcrete).2
      exact content nodes hconcrete hnodes (ih hnodes)
  | var reference nodes => exact absurd (everywhere_var.mp hconcrete).1 id
  | conditional reference child nodes =>
      exact absurd (everywhere_conditional.mp hconcrete).1 id
  | markdown reference nodes => exact absurd (everywhere_markdown.mp hconcrete).1 id
  | loop reference template nodes => exact absurd (everywhere_loop.mp hconcrete).1 id

/-- A concrete tree has no references. -/
theorem referencesList_of_concrete
    {nodes : List Node} (hconcrete : Concrete nodes) :
    referencesList nodes = [] := by
  induction hconcrete using Concrete.inductionOn with
  | nil => rfl
  | element name attrs children nodes _ hattrs _ ihChildren _ ih =>
      rw [referencesList, references, Attribute.references_of_literal hattrs.1, ihChildren, ih]
      rfl
  | doctype _ _ _ _ ih | text _ _ _ _ ih | comment _ _ _ _ ih | content _ _ _ ih => exact ih

theorem referencesList_conditional_of_concrete
    {reference : String} {child : Node} {nodes : List Node} (hconcrete : Concrete [child]) :
    referencesList (.conditional reference child :: nodes) =
      reference :: referencesList nodes := by
  have hnone := referencesList_of_concrete hconcrete
  rw [referencesList, referencesList, List.append_nil] at hnone
  rw [referencesList, references, hnone]
  rfl

/-! ## Putting in the body -/

mutual

/-- The nodes that a node of a document becomes when the body is put in place of content nodes. -/
def expand (content : List Node) : Node → List Node
  | .content => content
  | .element name attrs children => [.element name attrs (expandList content children)]
  | node => [node]

/-- The tree of a document with the body in place of content nodes. -/
def expandList (content : List Node) : List Node → List Node
  | [] => []
  | node :: nodes => expand content node ++ expandList content nodes

end

/-- A concrete tree is rendered to itself, with the body put in. -/
theorem renderList_of_concrete
    {nodes : List Node} (hconcrete : Concrete nodes) (content : List Node) (scope : Record) :
    renderList content scope nodes = expandList content nodes := by
  induction hconcrete using Concrete.inductionOn with
  | nil => rfl
  | element name attrs children nodes _ hattrs _ ihChildren _ ih =>
      rw [renderList, render, Attribute.filterMap_render?_of_literal scope hattrs.1, ihChildren, ih]
      rfl
  | doctype value nodes _ _ ih | text value nodes _ _ ih | comment value nodes _ _ ih
  | content nodes _ _ ih =>
      rw [renderList, ih]
      rfl

theorem render_of_concrete
    {node : Node} (hconcrete : Concrete [node]) (content : List Node) (scope : Record) :
    render content scope node = expand content node := by
  simpa [renderList, expandList] using renderList_of_concrete hconcrete content scope

/-- Without content nodes the body plays no part. -/
theorem expandList_of_notMem
    {nodes : List Node} (content : List Node) (hcontent : .content ∉ preorderList nodes) :
    expandList content nodes = nodes := by
  induction nodes using Node.inductionOn with
  | nil => rfl
  | element name attrs children nodes ihChildren ih =>
      simp only [preorderList, preorder, List.cons_append, List.mem_cons, List.mem_append,
        reduceCtorEq, false_or, not_or] at hcontent
      rw [expandList, expand, ihChildren hcontent.1, ih hcontent.2]
      rfl
  | content nodes _ => exact absurd (List.mem_append_left _ List.mem_cons_self) hcontent
  | doctype _ nodes ih | text _ nodes ih | comment _ nodes ih | var _ nodes ih
  | conditional _ _ nodes _ ih | markdown _ nodes ih | loop _ _ nodes _ ih =>
      have hnodes : .content ∉ preorderList nodes := fun hmem =>
        hcontent (List.mem_append_right _ hmem)
      rw [expandList, ih hnodes]
      rfl

end Node

end Stencil
