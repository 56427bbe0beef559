import Stencil.Proofs.Document.References
import Stencil.Proofs.Layout.Normal
import Stencil.Proofs.Page.Findings
import Stencil.Proofs.Record

/-!
# Trees with variables in place of varying values

A variation tells which texts and which attributes of a tree vary.  Marking the tree puts a
variable in place of each of them, under the reference of its place (`Node.markList`).  A marked
tree has a reference of its own for every variable, finds in the tree exactly the values that it
replaced (`projectList_markList`), and is rendered to the tree with them (`renderList_markList`).
-/

namespace Stencil

open Comparison (Site PlacedAt varReference attrReference)

/-- Which texts and which attributes vary, counted from zero in document order. -/
structure Variation where
  texts : Nat → Bool
  attributes : Nat → Bool

/-- Whatever varies in one of the two. -/
def Variation.union (v w : Variation) : Variation :=
  ⟨fun n => v.texts n || w.texts n, fun n => v.attributes n || w.attributes n⟩

/-! ## Marking -/

/-- Variables in place of the attributes that vary; `n` attributes come before. -/
def Attribute.mark (v : Variation) : Nat → List Attribute → List Attribute
  | _, [] => []
  | n, attr :: attrs =>
    (if v.attributes n then ⟨attr.name, .var (attrReference (n + 1))⟩ else attr) ::
      mark v (n + 1) attrs

mutual

/-- Variables in place of whatever varies at and below a node. -/
def Node.mark (v : Variation) (before : Ordinals) : Node → Node
  | .text value =>
    if v.texts before.texts then .var (varReference (before.texts + 1)) else .text value
  | .element name attrs children =>
    .element name (Attribute.mark v before.attrs attrs)
      (Node.markList v (before.add ⟨1, 0, attrs.length⟩) children)
  | node => node

/-- Variables in place of whatever varies in a tree. -/
def Node.markList (v : Variation) (before : Ordinals) : List Node → List Node
  | [] => []
  | node :: nodes => node.mark v before :: Node.markList v (before.add node.ordinals) nodes

end

/-! ## What was marked -/

/-- The attributes that vary, by place. -/
def Attribute.marked (v : Variation) : Nat → List Attribute → List (Site × String)
  | _, [] => []
  | n, attr :: attrs =>
    (if v.attributes n then [(.attribute (n + 1), attr.value.literal?.getD "")] else []) ++
      marked v (n + 1) attrs

mutual

/-- The values that vary at and below a node, by place. -/
def Node.marked (v : Variation) (before : Ordinals) : Node → List (Site × String)
  | .text value => if v.texts before.texts then [(.text (before.texts + 1), value)] else []
  | .element _ attrs children =>
    Attribute.marked v before.attrs attrs ++
      Node.markedList v (before.add ⟨1, 0, attrs.length⟩) children
  | _ => []

/-- The values that vary in a tree, by place. -/
def Node.markedList (v : Variation) (before : Ordinals) : List Node → List (Site × String)
  | [] => []
  | node :: nodes => node.marked v before ++ Node.markedList v (before.add node.ordinals) nodes

end

/-- What a page stores for a place. -/
def Variation.entry (found : Site × String) : String × Value :=
  (found.1.reference, .text found.2)

/-- The entries that a page stores for whatever varies in its tree. -/
def Variation.entries (v : Variation) (before : Ordinals) (nodes : List Node) :
    List (String × Value) :=
  (Node.markedList v before nodes).map entry

/-! ## References -/

theorem Attribute.names_mark (v : Variation) (n : Nat) (attrs : List Attribute) :
    (mark v n attrs).map Attribute.name = attrs.map Attribute.name := by
  induction attrs generalizing n with
  | nil => rfl
  | cons attr attrs ih =>
      rw [mark, List.map_cons, List.map_cons, ih]
      split_ifs <;> rfl

theorem Attribute.references_mark
    {attrs : List Attribute} (v : Variation) (n : Nat)
    (hliteral : ∀ attr ∈ attrs, attr.value.isPlaceholder = false) :
    references (mark v n attrs) = (marked v n attrs).map fun found => found.1.reference := by
  induction attrs generalizing n with
  | nil => rfl
  | cons attr attrs ih =>
      have hrest := ih (n + 1) fun other hother => hliteral other (List.mem_cons_of_mem _ hother)
      obtain ⟨value, hvalue⟩ :=
        eq_static_of_not_isPlaceholder (hliteral attr List.mem_cons_self)
      rw [mark, marked, List.map_append, ← hrest, hvalue]
      split_ifs <;> rfl

/-- A marked tree has one reference for every marked place, in document order. -/
theorem Node.referencesList_markList
    {nodes : List Node} (v : Variation) (before : Ordinals) (hconcrete : Concrete nodes) :
    referencesList (markList v before nodes) =
      (markedList v before nodes).map fun found => found.1.reference := by
  induction hconcrete using Concrete.inductionOn generalizing before with
  | nil => rfl
  | text value nodes _ _ ih =>
      rw [markList, mark, referencesList, ih, markedList, marked, List.map_append]
      split_ifs <;> rfl
  | element name attrs children nodes _ hattrs _ ihChildren _ ih =>
      rw [markList, mark, referencesList, references, Attribute.references_mark v _ hattrs.1,
        ihChildren, ih, markedList, marked, List.map_append, List.map_append]
  | doctype _ nodes _ _ ih | comment _ nodes _ _ ih | content nodes _ _ ih =>
      exact ih _

/-! ## References are different -/

/-- The place is a text or an attribute counted after `before` and up to `last`. -/
def Comparison.Site.Within (before last : Ordinals) : Site → Prop
  | .text n => before.texts < n ∧ n ≤ last.texts
  | .attribute n => before.attrs < n ∧ n ≤ last.attrs
  | .node _ | .insertion .. => False

theorem Comparison.Site.Within.of_add
    {before between last : Ordinals} {site : Site}
    (h : site.Within (before.add between) last) :
    site.Within before last := by
  cases site <;>
    simp only [Site.Within, Ordinals.add_texts, Ordinals.add_attrs] at h ⊢ <;> omega

theorem Attribute.placedAt_mark
    {attrs : List Attribute} (v : Variation) (n : Nat)
    (hliteral : ∀ attr ∈ attrs, attr.value.isPlaceholder = false) :
    PlacedAt (Site.AttributeBetween n (n + attrs.length)) (references (mark v n attrs)) := by
  induction attrs generalizing n with
  | nil => exact .nil
  | cons attr attrs ih =>
      have hrest := ih (n + 1) fun other hother => hliteral other (List.mem_cons_of_mem _ hother)
      have hlater : ∀ site : Site, site.AttributeBetween (n + 1) (n + 1 + attrs.length) →
          site.AttributeBetween n (n + (attr :: attrs).length) := by
        intro site hsite
        cases site <;> simp only [Site.AttributeBetween, List.length_cons] at hsite ⊢
        omega
      rw [mark]
      split_ifs with hvaries
      · refine PlacedAt.cons (.attribute (n + 1)) ?_ hrest ?_ hlater
        · simp only [Site.AttributeBetween, List.length_cons]
          omega
        · simp only [Site.AttributeBetween]
          omega
      · obtain ⟨value, hvalue⟩ :=
          eq_static_of_not_isPlaceholder (hliteral attr List.mem_cons_self)
        rw [hvalue]
        exact hrest.mono hlater

/-- The references of a marked tree tell different places. -/
theorem Node.placedAt_markList
    {nodes : List Node} (v : Variation) (before : Ordinals) (hconcrete : Concrete nodes) :
    PlacedAt (Site.Within before (before.add (ordinalsList nodes)))
      (referencesList (markList v before nodes)) := by
  induction hconcrete using Concrete.inductionOn generalizing before with
  | nil => exact .nil
  | doctype _ nodes _ _ ih | comment _ nodes _ _ ih | content nodes _ _ ih =>
      refine (ih (before.add ⟨1, 0, 0⟩)).mono fun site hsite => ?_
      rw [Ordinals.add_assoc] at hsite
      exact hsite.of_add
  | text value nodes _ _ ih =>
      have hrest := ih (before.add (ordinals (.text value)))
      rw [Ordinals.add_assoc] at hrest
      rw [markList, mark, referencesList]
      split_ifs
      · refine PlacedAt.cons (.text (before.texts + 1)) ?_ hrest ?_ fun _ => Site.Within.of_add
        · simp only [Site.Within, ordinalsList, ordinals, Ordinals.add_texts]
          omega
        · simp only [Site.Within, ordinals, Ordinals.add_texts]
          omega
      · exact hrest.mono fun _ => Site.Within.of_add
  | element name attrs children nodes _ hattrs _ ihChildren _ ih =>
      have hinside := ihChildren (before.add ⟨1, 0, attrs.length⟩)
      have hrest := ih (before.add (ordinals (.element name attrs children)))
      rw [Ordinals.add_assoc] at hrest
      rw [markList, mark, referencesList, references]
      refine (((Attribute.placedAt_mark v before.attrs hattrs.1).append hinside ?_).append
        hrest ?_).mono ?_
      · intro site hsite hwithin
        cases site <;> simp only [Site.AttributeBetween, Site.Within, Ordinals.add_attrs]
          at hsite hwithin
        omega
      · intro site hsite hwithin
        cases site <;> simp only [Site.AttributeBetween, Site.Within, ordinals,
          Ordinals.add_texts, Ordinals.add_attrs, false_or, or_false] at hsite hwithin <;> omega
      · intro site hsite
        cases site <;> simp only [Site.AttributeBetween, Site.Within, ordinalsList, ordinals,
          Ordinals.add_texts, Ordinals.add_attrs, false_or, or_false] at hsite ⊢ <;> omega

theorem Node.everywhere_distinctTemplate_markList
    {nodes : List Node} (v : Variation) (before : Ordinals) (hconcrete : Concrete nodes) :
    Everywhere DistinctTemplate (markList v before nodes) := by
  induction hconcrete using Concrete.inductionOn generalizing before with
  | nil => exact everywhere_nil
  | element name attrs children nodes _ _ _ ihChildren _ ih =>
      exact everywhere_element.mpr ⟨trivial, ihChildren _, ih _⟩
  | text value nodes _ _ ih =>
      rw [markList, mark]
      split_ifs
      · exact everywhere_var.mpr ⟨trivial, ih _⟩
      · exact everywhere_text.mpr ⟨trivial, ih _⟩
  | doctype value nodes _ _ ih => exact everywhere_doctype.mpr ⟨trivial, ih _⟩
  | comment value nodes _ _ ih => exact everywhere_comment.mpr ⟨trivial, ih _⟩
  | content nodes _ _ ih => exact everywhere_content.mpr ⟨trivial, ih _⟩

/-- A marked tree is its own normal form. -/
theorem Layout.normalized_markList
    {nodes : List Node} (v : Variation) (hconcrete : Node.Concrete nodes) :
    (Layout.mk (Node.markList v {} nodes)).normalized = ⟨Node.markList v {} nodes⟩ :=
  normalized_eq_self
    { page := (Node.placedAt_markList v {} hconcrete).nodup
      templates := Node.everywhere_distinctTemplate_markList v {} hconcrete }

/-! ## Projecting and rendering -/

theorem Attribute.project_mark
    {attrs concrete : List Attribute} (v : Variation) (element : String) (n : Nat)
    (hconcrete : Static concrete) (hattrs : ∀ attr ∈ attrs, attr ∈ concrete) :
    Attribute.project element (mark v n attrs) concrete =
      ((marked v n attrs).map Variation.entry).map fun entry => .entry entry.1 entry.2 := by
  induction attrs generalizing n with
  | nil => rfl
  | cons attr attrs ih =>
      have hrest := ih (n + 1) fun other hother => hattrs other (List.mem_cons_of_mem _ hother)
      have hattr := hattrs attr List.mem_cons_self
      obtain ⟨value, hvalue⟩ := hconcrete.eq_static hattr
      have hfound : lastLiteral? concrete attr.name = some value :=
        (lastLiteral?_eq_some_iff hconcrete).mpr (hvalue ▸ hattr)
      rw [mark, marked, project, List.filterMap_cons, List.map_append, List.map_append, ← hrest]
      split_ifs
      · simp only [hfound]
        rw [hvalue]
        rfl
      · rw [hvalue]
        rfl

/-- The values that were replaced are found again, and everything fits. -/
theorem Node.projectList_markList
    {nodes : List Node} (v : Variation) (before : Ordinals) (hconcrete : Concrete nodes) :
    projectList (markList v before nodes) nodes =
      (v.entries before nodes).map fun entry => .entry entry.1 entry.2 := by
  induction hconcrete using Concrete.inductionOn generalizing before with
  | nil => rfl
  | doctype _ nodes _ _ ih | comment _ nodes _ _ ih | content nodes _ _ ih =>
      exact (projectList_cons_of_accepts rfl (accepts_self _)).trans (ih _)
  | text value nodes _ _ ih =>
      rw [Variation.entries, markList, mark, markedList, marked]
      split_ifs
      · rw [projectList_cons_of_accepts rfl rfl, ih]
        rfl
      · rw [projectList_cons_of_accepts rfl (accepts_self _), ih]
        rfl
  | element name attrs children nodes _ hattrs _ ihChildren _ ih =>
      have haccepts : accepts (mark v before (.element name attrs children))
          (.element name attrs children) = true := by
        simp [accepts, mark, equivalent, core, sameSlot]
      rw [markList, projectList_cons_of_accepts rfl haccepts, ih, mark, project, ihChildren,
        Attribute.project_mark v name _ hattrs fun _ => id]
      simp [Variation.entries, markedList, marked]

theorem Attribute.filterMap_render?_mark
    {attrs : List Attribute} {scope : Record} (v : Variation) (n : Nat)
    (hliteral : ∀ attr ∈ attrs, attr.value.isPlaceholder = false)
    (hscope : scope.Agrees ((marked v n attrs).map Variation.entry)) :
    (mark v n attrs).filterMap (render? scope) = attrs := by
  induction attrs generalizing n with
  | nil => rfl
  | cons attr attrs ih =>
      obtain ⟨value, hvalue⟩ :=
        eq_static_of_not_isPlaceholder (hliteral attr List.mem_cons_self)
      rw [marked, List.map_append, Record.agrees_append] at hscope
      have hrest := ih (n + 1) (fun other hother => hliteral other (List.mem_cons_of_mem _ hother))
        hscope.2
      have hhead : render? scope
          (if v.attributes n then ⟨attr.name, .var (attrReference (n + 1))⟩ else attr) =
            some attr := by
        split_ifs with hvaries
        · have hstored : scope.get? (attrReference (n + 1)) = some (.text value) := by
            rw [if_pos hvaries, hvalue] at hscope
            exact (Record.agrees_cons.mp hscope.1).1
          rw [render?, Record.text?, hstored, hvalue]
          rfl
        · rw [hvalue]
          rfl
      rw [mark, List.filterMap_cons, hhead, hrest]

/-- With the values that were replaced, a marked tree is rendered to the tree itself. -/
theorem Node.renderList_markList
    {nodes : List Node} {scope : Record} (content : List Node) (v : Variation) (before : Ordinals)
    (hconcrete : Concrete nodes) (hscope : scope.Agrees (v.entries before nodes)) :
    renderList content scope (markList v before nodes) = expandList content nodes := by
  induction hconcrete using Concrete.inductionOn generalizing before with
  | nil => rfl
  | doctype _ nodes _ _ ih | comment _ nodes _ _ ih | content nodes _ _ ih =>
      rw [markList, renderList, ih _ hscope]
      rfl
  | text value nodes _ _ ih =>
      rw [Variation.entries, markedList, marked, List.map_append, Record.agrees_append] at hscope
      rw [markList, renderList, ih _ hscope.2, mark, expandList]
      split_ifs with hvaries
      · have hstored : scope.get? (varReference (before.texts + 1)) = some (.text value) := by
          rw [if_pos hvaries] at hscope
          exact (Record.agrees_cons.mp hscope.1).1
        rw [render, Record.text?, hstored]
        rfl
      · rfl
  | element name attrs children nodes _ hattrs _ ihChildren _ ih =>
      rw [Variation.entries, markedList, marked, List.map_append, List.map_append,
        Record.agrees_append, Record.agrees_append] at hscope
      rw [markList, renderList, ih _ hscope.2, mark, render,
        Attribute.filterMap_render?_mark v _ hattrs.1 hscope.1.1, ihChildren _ hscope.1.2]
      rfl

end Stencil
