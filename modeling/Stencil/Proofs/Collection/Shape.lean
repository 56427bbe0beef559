import Stencil.Proofs.Collection.Variation
import Stencil.Proofs.Document.Numbering

/-!
# Trees of the same shape

Two trees have the same shape if they are equal once the values of texts and attributes are erased
(`Node.shapeList`).  `Node.Parallel` walks through two such trees at the same time and asks
something of the two values at every place.  Trees that differ only where a variation tells so
become the same tree when they are marked (`Parallel.markList_eq`).
-/

namespace Stencil

open Comparison (Site)

/-! ## Shapes -/

namespace Node

mutual

/-- The node with the values of texts and attributes erased. -/
def shape : Node → Node
  | .text _ => .text ""
  | .element name attrs children =>
    .element name (attrs.map fun attr => .static attr.name "") (shapeList children)
  | .conditional reference child => .conditional reference (shape child)
  | .loop reference template => .loop reference (shape template)
  | .doctype value => .doctype value
  | .comment value => .comment value
  | .var reference => .var reference
  | .content => .content
  | .markdown reference => .markdown reference

/-- The tree with the values of texts and attributes erased. -/
def shapeList : List Node → List Node
  | [] => []
  | node :: nodes => shape node :: shapeList nodes

end

end Node

/-! ## Walking through two trees -/

/-- What is asked of the two values at a place, texts and attributes counted from zero. -/
structure Criterion where
  texts : Nat → String → String → Prop
  attributes : Nat → String → String → Prop

/-- The same names in the same order, and values that meet the criterion. -/
inductive Attribute.Parallel (c : Criterion) : Nat → List Attribute → List Attribute → Prop
  | nil {n : Nat} : Parallel c n [] []
  | cons {n : Nat} {v w : String} {as bs : List Attribute} (name : String)
      (hvalues : c.attributes n v w) (hrest : Parallel c (n + 1) as bs) :
      Parallel c n (.static name v :: as) (.static name w :: bs)

/-- The same shape, and values that meet the criterion. -/
inductive Node.Parallel (c : Criterion) : Ordinals → List Node → List Node → Prop
  | nil {before : Ordinals} : Parallel c before [] []
  | doctype {before : Ordinals} {as bs : List Node} (value : String)
      (hrest : Parallel c (before.add ⟨1, 0, 0⟩) as bs) :
      Parallel c before (.doctype value :: as) (.doctype value :: bs)
  | comment {before : Ordinals} {as bs : List Node} (value : String)
      (hrest : Parallel c (before.add ⟨1, 0, 0⟩) as bs) :
      Parallel c before (.comment value :: as) (.comment value :: bs)
  | content {before : Ordinals} {as bs : List Node}
      (hrest : Parallel c (before.add ⟨1, 0, 0⟩) as bs) :
      Parallel c before (.content :: as) (.content :: bs)
  | text {before : Ordinals} {v w : String} {as bs : List Node}
      (hvalues : c.texts before.texts v w) (hrest : Parallel c (before.add ⟨1, 1, 0⟩) as bs) :
      Parallel c before (.text v :: as) (.text w :: bs)
  | element {before : Ordinals} {attrs otherAttrs : List Attribute}
      {children otherChildren as bs : List Node} (name : String)
      (hattrs : Attribute.Parallel c before.attrs attrs otherAttrs)
      (hinside : Parallel c (before.add ⟨1, 0, attrs.length⟩) children otherChildren)
      (hrest : Parallel c (before.add (ordinals (.element name attrs children))) as bs) :
      Parallel c before
        (.element name attrs children :: as) (.element name otherAttrs otherChildren :: bs)

/-! ## Parallel trees from equal shapes -/

/-- Items at the same index, counted on from `n`, are related. -/
def Pointwise (p : Nat → α → α → Prop) (n : Nat) (as bs : List α) : Prop :=
  ∀ i a b, as[i]? = some a → bs[i]? = some b → p (n + i) a b

section Pointwise

variable {p : Nat → α → α → Prop} {n : Nat} {a b : α} {as bs more others : List α}

theorem pointwise_cons (h : Pointwise p n (a :: as) (b :: bs)) :
    p n a b ∧ Pointwise p (n + 1) as bs := by
  refine ⟨h 0 a b rfl rfl, fun i x y hx hy => ?_⟩
  have hi := h (i + 1) x y hx hy
  rwa [Nat.add_comm i 1, ← Nat.add_assoc] at hi

theorem pointwise_append
    (hlength : as.length = bs.length) (h : Pointwise p n (as ++ more) (bs ++ others)) :
    Pointwise p n as bs ∧ Pointwise p (n + as.length) more others := by
  constructor
  · intro i x y hx hy
    obtain ⟨hi, -⟩ := List.getElem?_eq_some_iff.mp hx
    obtain ⟨hi', -⟩ := List.getElem?_eq_some_iff.mp hy
    apply h i x y
    · rw [List.getElem?_append_left hi, hx]
    · rw [List.getElem?_append_left hi', hy]
  · intro i x y hx hy
    rw [Nat.add_assoc]
    apply h (as.length + i) x y
    · rw [List.getElem?_append_right (Nat.le_add_right _ _), Nat.add_sub_cancel_left, hx]
    · rw [List.getElem?_append_right (by omega), hlength, Nat.add_sub_cancel_left, hy]

end Pointwise

/-- The criterion as a relation between literal attributes. -/
def Criterion.Attributes (c : Criterion) (n : Nat) (a b : Attribute) : Prop :=
  ∀ v w, a.value = .literal v → b.value = .literal w → c.attributes n v w

theorem Attribute.Parallel.of_names
    {c : Criterion} {n : Nat} {as bs : List Attribute}
    (has : ∀ attr ∈ as, attr.value.isPlaceholder = false)
    (hbs : ∀ attr ∈ bs, attr.value.isPlaceholder = false)
    (hnames : as.map Attribute.name = bs.map Attribute.name)
    (hvalues : Pointwise c.Attributes n as bs) :
    Parallel c n as bs := by
  induction as generalizing n bs with
  | nil =>
      have hnil : bs = [] := by simpa using hnames.symm
      rw [hnil]
      exact .nil
  | cons a as ih =>
      cases bs with
      | nil => simp at hnames
      | cons b bs =>
          simp only [List.map_cons, List.cons.injEq] at hnames
          obtain ⟨hvalue, hrest⟩ := pointwise_cons hvalues
          obtain ⟨v, hv⟩ := eq_static_of_not_isPlaceholder (has a List.mem_cons_self)
          obtain ⟨w, hw⟩ := eq_static_of_not_isPlaceholder (hbs b List.mem_cons_self)
          have htail := ih (fun attr hattr => has attr (List.mem_cons_of_mem _ hattr))
            (fun attr hattr => hbs attr (List.mem_cons_of_mem _ hattr)) hnames.2 hrest
          rw [hv, hw] at hvalue ⊢
          rw [← hnames.1]
          exact .cons a.name (hvalue v w rfl rfl) htail

theorem Node.ordinalsList_shapeList
    {nodes : List Node} (hconcrete : Concrete nodes) :
    ordinalsList (shapeList nodes) = ordinalsList nodes := by
  induction hconcrete using Concrete.inductionOn with
  | nil => rfl
  | element name attrs children nodes _ _ _ ihChildren _ ih =>
      rw [shapeList, shape, ordinalsList, ordinals, ihChildren, ih, List.length_map]
      rfl
  | text _ nodes _ _ ih | doctype _ nodes _ _ ih | comment _ nodes _ _ ih | content nodes _ _ ih =>
      rw [shapeList, ordinalsList, ih]
      rfl

theorem Node.ordinalsList_of_shapes
    {as bs : List Node} (has : Concrete as) (hbs : Concrete bs)
    (hshape : shapeList as = shapeList bs) :
    ordinalsList as = ordinalsList bs := by
  rw [← ordinalsList_shapeList has, hshape, ordinalsList_shapeList hbs]

theorem Node.cons_of_shapeList
    {a : Node} {as bs : List Node} (hshape : shapeList (a :: as) = shapeList bs) :
    ∃ b rest, bs = b :: rest ∧ shape a = shape b ∧ shapeList as = shapeList rest := by
  cases bs with
  | nil => simp [shapeList] at hshape
  | cons b rest =>
      rw [shapeList, shapeList, List.cons.injEq] at hshape
      exact ⟨b, rest, rfl, hshape⟩

/-- Trees of the same shape are parallel if their texts and attributes meet the criterion one by
one. -/
theorem Node.Parallel.of_shapes
    {c : Criterion} {before : Ordinals} {as bs : List Node}
    (has : Concrete as) (hbs : Concrete bs) (hshape : shapeList as = shapeList bs)
    (htexts : Pointwise c.texts before.texts (texts as) (texts bs))
    (hattributes : Pointwise c.Attributes before.attrs (attributes as) (attributes bs)) :
    Parallel c before as bs := by
  induction has using Concrete.inductionOn generalizing before bs with
  | nil =>
      cases bs with
      | nil => exact .nil
      | cons b bs => simp [shapeList] at hshape
  | doctype value as _ _ ih =>
      obtain ⟨b, bs, rfl, hhead, hrest⟩ := cons_of_shapeList hshape
      cases b <;> simp only [shape, doctype.injEq, reduceCtorEq] at hhead
      rw [← hhead] at hbs ⊢
      exact .doctype value (ih (everywhere_doctype.mp hbs).2 hrest htexts hattributes)
  | comment value as _ _ ih =>
      obtain ⟨b, bs, rfl, hhead, hrest⟩ := cons_of_shapeList hshape
      cases b <;> simp only [shape, comment.injEq, reduceCtorEq] at hhead
      rw [← hhead] at hbs ⊢
      exact .comment value (ih (everywhere_comment.mp hbs).2 hrest htexts hattributes)
  | content as _ _ ih =>
      obtain ⟨b, bs, rfl, hhead, hrest⟩ := cons_of_shapeList hshape
      cases b <;> simp only [shape, reduceCtorEq] at hhead
      exact .content (ih (everywhere_content.mp hbs).2 hrest htexts hattributes)
  | text v as _ _ ih =>
      obtain ⟨b, bs, rfl, hhead, hrest⟩ := cons_of_shapeList hshape
      cases b <;> simp only [shape, reduceCtorEq] at hhead
      obtain ⟨hvalues, htexts⟩ := pointwise_cons htexts
      exact .text hvalues (ih (everywhere_text.mp hbs).2 hrest htexts hattributes)
  | element name attrs children as _ hattrs hchildren ihChildren _ ih =>
      obtain ⟨b, bs, rfl, hhead, hrest⟩ := cons_of_shapeList hshape
      cases b <;> simp only [shape, element.injEq, reduceCtorEq] at hhead
      rename_i otherName otherAttrs otherChildren
      obtain ⟨rfl, hnames, hinside⟩ := hhead
      obtain ⟨hotherAttrs, hotherChildren, hbs⟩ := everywhere_element.mp hbs
      replace hnames : attrs.map Attribute.name = otherAttrs.map Attribute.name := by
        have h := congrArg (List.map Attribute.name) hnames
        simpa [List.map_map, Function.comp_def, Attribute.static] using h
      have hordinals := ordinalsList_of_shapes hchildren hotherChildren hinside
      rw [texts_element, texts_element] at htexts
      rw [attributes_element, attributes_element] at hattributes
      obtain ⟨htextsInside, htextsRest⟩ := pointwise_append
        (by rw [length_texts, length_texts, hordinals]) htexts
      obtain ⟨hattributesHere, hattributes⟩ := pointwise_append
        (by simpa using congrArg List.length hnames) hattributes
      obtain ⟨hattributesInside, hattributesRest⟩ := pointwise_append
        (by rw [length_attributes, length_attributes, hordinals])
        hattributes
      rw [length_texts] at htextsRest
      rw [length_attributes] at hattributesRest
      refine .element name (.of_names hattrs.1 hotherAttrs.1 hnames hattributesHere)
        (ihChildren hotherChildren hinside htextsInside hattributesInside) ?_
      apply ih hbs hrest
      · simpa [ordinals] using htextsRest
      · simpa [ordinals, Nat.add_assoc] using hattributesRest

/-! ## Marking parallel trees -/

/-- Values only differ where the variation tells so. -/
def Variation.covers (v : Variation) : Criterion where
  texts n a b := a ≠ b → v.texts n = true
  attributes n a b := a ≠ b → v.attributes n = true

/-- Values differ exactly where the variation tells so. -/
def Variation.matches (v : Variation) : Criterion where
  texts n a b := v.texts n = decide (a ≠ b)
  attributes n a b := v.attributes n = decide (a ≠ b)

theorem Attribute.Parallel.names_eq
    {c : Criterion} {n : Nat} {as bs : List Attribute} (h : Parallel c n as bs) :
    as.map Attribute.name = bs.map Attribute.name := by
  induction h with
  | nil => rfl
  | cons _ _ _ ih => rw [List.map_cons, List.map_cons, ih, static, static]

theorem Attribute.Parallel.length_eq
    {c : Criterion} {n : Nat} {as bs : List Attribute} (h : Parallel c n as bs) :
    as.length = bs.length := by
  simpa using congrArg List.length h.names_eq

theorem Node.Parallel.ordinalsList_eq
    {c : Criterion} {before : Ordinals} {as bs : List Node} (h : Parallel c before as bs) :
    ordinalsList as = ordinalsList bs := by
  induction h with
  | nil => rfl
  | doctype _ _ ih | comment _ _ ih | content _ ih => rw [ordinalsList, ordinalsList, ih]
  | text _ _ ih =>
      rw [ordinalsList, ordinalsList, ih]
      rfl
  | element _ hattrs _ _ ihInside ih =>
      rw [ordinalsList, ordinalsList, ordinals, ordinals, hattrs.length_eq, ihInside, ih]

theorem Attribute.Parallel.mark_eq
    {v : Variation} {n : Nat} {as bs : List Attribute} (h : Parallel v.covers n as bs) :
    mark v n as = mark v n bs := by
  induction h with
  | nil => rfl
  | @cons n a b _ _ name hvalues _ ih =>
      rw [mark, mark, ih]
      congr 1
      by_cases heq : a = b
      · rw [heq]
      · have hvaries : v.attributes n = true := hvalues heq
        simp [hvaries, static]

/-- Trees that differ only where the variation tells so are marked alike. -/
theorem Node.Parallel.markList_eq
    {v : Variation} {before : Ordinals} {as bs : List Node}
    (h : Parallel v.covers before as bs) :
    markList v before as = markList v before bs := by
  induction h with
  | nil => rfl
  | doctype _ _ ih | comment _ _ ih | content _ ih => exact congrArg (_ :: ·) ih
  | @text before a b _ _ hvalues _ ih =>
      have hhead : mark v before (.text a) = mark v before (.text b) := by
        by_cases heq : a = b
        · rw [heq]
        · have hvaries : v.texts before.texts = true := hvalues heq
          simp [mark, hvaries]
      rw [markList, markList, hhead]
      exact congrArg (_ :: ·) ih
  | @element before attrs otherAttrs children otherChildren _ _ name hattrs hinside _ ihInside ih =>
      have hordinals : ordinals (.element name attrs children) =
          ordinals (.element name otherAttrs otherChildren) := by
        rw [ordinals, ordinals, hattrs.length_eq, hinside.ordinalsList_eq]
      rw [markList, markList, mark, mark, hattrs.mark_eq, hattrs.length_eq.symm, ihInside, ih,
        hordinals]

/-! ## Marked values are values of the tree -/

/-- Counted on from `before`, the text or the attribute at the place has the value. -/
def Comparison.Site.HasValue (before : Ordinals) (nodes : List Node) (value : String) :
    Site → Prop
  | .text m => Numbered before.texts (Node.texts nodes) m value
  | .attribute m => ∃ name, Numbered before.attrs (Node.attributes nodes) m (.static name value)
  | .node _ | .insertion .. => False

theorem Attribute.numbered_of_mem_marked
    {v : Variation} {n : Nat} {attrs : List Attribute} {found : Site × String}
    (hliteral : ∀ attr ∈ attrs, attr.value.isPlaceholder = false)
    (hfound : found ∈ marked v n attrs) :
    ∃ m name, found.1 = .attribute m ∧ Numbered n attrs m (.static name found.2) := by
  induction attrs generalizing n with
  | nil => simp [marked] at hfound
  | cons attr attrs ih =>
      rcases List.mem_append.mp hfound with hhere | hlater
      · obtain ⟨value, hvalue⟩ :=
          eq_static_of_not_isPlaceholder (hliteral attr List.mem_cons_self)
        split_ifs at hhere with hvaries
        · rw [List.mem_singleton.mp hhere, hvalue]
          exact ⟨n + 1, attr.name, rfl, .head⟩
        · exact absurd hhere List.not_mem_nil
      · obtain ⟨m, name, hsite, hnumbered⟩ :=
          ih (fun other hother => hliteral other (List.mem_cons_of_mem _ hother)) hlater
        exact ⟨m, name, hsite, hnumbered.tail⟩

theorem Comparison.Site.HasValue.of_inside
    {before : Ordinals} {name value : String} {attrs : List Attribute}
    {children nodes : List Node} {site : Site}
    (h : site.HasValue (before.add ⟨1, 0, attrs.length⟩) children value) :
    site.HasValue before (.element name attrs children :: nodes) value := by
  cases site with
  | text m =>
      rw [Site.HasValue, Node.texts_element]
      exact Numbered.append_left h
  | «attribute» m =>
      obtain ⟨attr, hnumbered⟩ := h
      refine ⟨attr, ?_⟩
      rw [Node.attributes_element]
      exact hnumbered.append_left.append_right
  | _ => exact h

theorem Comparison.Site.HasValue.of_rest
    {before : Ordinals} {value : String} {node : Node} {nodes : List Node} {site : Site}
    (h : site.HasValue (before.add node.ordinals) nodes value) :
    site.HasValue before (node :: nodes) value := by
  have hordinals : Node.ordinalsList [node] = node.ordinals := rfl
  cases site with
  | text m =>
      rw [Site.HasValue, Node.texts_cons]
      apply Numbered.append_right
      rw [Node.length_texts, hordinals]
      exact h
  | «attribute» m =>
      obtain ⟨attr, hnumbered⟩ := h
      refine ⟨attr, ?_⟩
      rw [Node.attributes_cons]
      apply Numbered.append_right
      rw [Node.length_attributes, hordinals]
      exact hnumbered
  | _ => exact h

/-- Whatever is marked in a tree is a text or an attribute of the tree. -/
theorem Node.hasValue_of_mem_markedList
    {v : Variation} {before : Ordinals} {nodes : List Node} {found : Site × String}
    (hconcrete : Concrete nodes) (hfound : found ∈ markedList v before nodes) :
    found.1.HasValue before nodes found.2 := by
  induction hconcrete using Concrete.inductionOn generalizing before with
  | nil => exact absurd hfound List.not_mem_nil
  | doctype _ _ _ _ ih | comment _ _ _ _ ih | content _ _ _ ih =>
      exact (ih hfound).of_rest
  | text value nodes _ _ ih =>
      rcases List.mem_append.mp hfound with hhere | hlater
      · rw [marked] at hhere
        split_ifs at hhere with hvaries
        · rw [List.mem_singleton.mp hhere]
          exact Numbered.head
        · exact absurd hhere List.not_mem_nil
      · exact (ih hlater).of_rest
  | element name attrs children nodes _ hattrs _ ihChildren _ ih =>
      rw [markedList, marked, List.mem_append, List.mem_append] at hfound
      rcases hfound with (hhere | hinside) | hlater
      · obtain ⟨m, attr, hsite, hnumbered⟩ := Attribute.numbered_of_mem_marked hattrs.1 hhere
        rw [hsite]
        refine ⟨attr, ?_⟩
        rw [attributes_element]
        exact hnumbered.append_left
      · exact (ihChildren hinside).of_inside
      · exact (ih hlater).of_rest

end Stencil
