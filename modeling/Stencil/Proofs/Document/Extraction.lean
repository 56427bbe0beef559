import Stencil.Document.Reader
import Stencil.Proofs.Node.Concrete

/-!
# Taking out the body

A spot is the way from the first root of a tree to one of its elements, with everything that it goes
by, so that a tree with a spot is known up to the children of one element.  Its address tells the
spot by numbers, and the order of addresses is document order.

Taking out the body of a page is a search for the first spot that is selected: the children of its
element are taken out and a content node comes in their place, and putting them back for the content
node gives the tree again (`body_of_first_selected`).
-/

namespace Stencil

/-- The way to an element of a tree: past nodes, into elements and at last to the element itself,
with the siblings after every element on it.  Only the children of the last element are left
open. -/
inductive Spot where
  | here (name : String) (attrs : List Attribute) (after : List Node)
  | inside (name : String) (attrs : List Attribute) (spot : Spot) (after : List Node)
  | past (before : Node) (spot : Spot)

namespace Spot

/-- The tree in which the element has the given children. -/
def fill (children : List Node) : Spot → List Node
  | here name attrs after => .element name attrs children :: after
  | inside name attrs spot after => .element name attrs (spot.fill children) :: after
  | past before spot => before :: spot.fill children

/-- The number of the element among its siblings, after those of the elements around it. -/
def address : Spot → List Nat
  | here .. => [0]
  | inside _ _ spot _ => 0 :: spot.address
  | past _ spot => spot.address.modifyHead (· + 1)

/-- Document order.  Addresses are compared like words in a dictionary: an element comes before
everything in it, and this before its later siblings. -/
def Before (spot other : Spot) : Prop :=
  List.Lex (· < ·) spot.address other.address

/-- The selector selects the element. -/
def IsSelected (selector : Selector) : Spot → Prop
  | here name attrs _ => selector.selects name attrs = true
  | inside _ _ spot _ | past _ spot => spot.IsSelected selector

/-- The way leads to an element of the tree. -/
def IsIn (tree : List Node) (spot : Spot) : Prop :=
  ∃ children, spot.fill children = tree

/-- The way leads to the first element of the tree, in document order, that is selected. -/
structure IsFirst (selector : Selector) (tree : List Node) (spot : Spot) : Prop where
  mem : spot.IsIn tree
  selected : spot.IsSelected selector
  not_before : ∀ other : Spot, other.IsIn tree → other.IsSelected selector → ¬ other.Before spot

variable {selector : Selector} {spot other later : Spot} {tree nodes children after : List Node}
  {node : Node} {name : String} {attrs : List Attribute}

/-! ## Spots of a tree -/

theorem not_isIn_nil (spot : Spot) : ¬ spot.IsIn [] := by
  rintro ⟨children, h⟩
  cases spot <;> simp [fill] at h

/-- A way leads to the first node, into it or past it. -/
theorem isIn_cons (h : spot.IsIn (node :: nodes)) :
    (∃ name attrs children, node = .element name attrs children ∧ spot = here name attrs nodes) ∨
      (∃ name attrs children inner, node = .element name attrs children ∧
        spot = inside name attrs inner nodes ∧ inner.IsIn children) ∨
      ∃ later, spot = past node later ∧ later.IsIn nodes := by
  obtain ⟨body, h⟩ := h
  cases spot with
  | here name attrs after =>
      obtain ⟨rfl, rfl⟩ := List.cons.inj h
      exact Or.inl ⟨name, attrs, body, rfl, rfl⟩
  | inside name attrs inner after =>
      obtain ⟨rfl, rfl⟩ := List.cons.inj h
      exact Or.inr (Or.inl ⟨name, attrs, inner.fill body, inner, rfl, rfl, body, rfl⟩)
  | past before later =>
      obtain ⟨rfl, rfl⟩ := List.cons.inj h
      exact Or.inr (Or.inr ⟨later, rfl, body, rfl⟩)

/-! ## Document order -/

theorem exists_address (spot : Spot) : ∃ i rest, spot.address = i :: rest := by
  induction spot with
  | here => exact ⟨0, [], rfl⟩
  | inside name attrs inner after ih => exact ⟨0, inner.address, rfl⟩
  | past before later ih =>
      obtain ⟨i, rest, h⟩ := ih
      exact ⟨i + 1, rest, by rw [address, h, List.modifyHead_cons]⟩

theorem not_before_here (spot : Spot) : ¬ spot.Before (here name attrs after) := by
  obtain ⟨i, rest, h⟩ := spot.exists_address
  rw [Before, h, address, List.cons_lex_cons_iff]
  rintro (hlt | ⟨-, hlex⟩)
  · exact Nat.not_lt_zero i hlt
  · cases hlex

theorem here_before_inside :
    (here name attrs after).Before (inside name attrs spot after) := by
  obtain ⟨i, rest, h⟩ := spot.exists_address
  rw [Before, address, address, h]
  exact .cons .nil

theorem inside_before_inside_iff :
    (inside name attrs spot after).Before (inside name attrs other after) ↔ spot.Before other := by
  simp [Before, address, List.cons_lex_cons_iff]

theorem past_before_past_iff : (past node spot).Before (past node other) ↔ spot.Before other := by
  obtain ⟨i, rest, hspot⟩ := spot.exists_address
  obtain ⟨j, tail, hother⟩ := other.exists_address
  simp [Before, address, hspot, hother, List.cons_lex_cons_iff]

/-- Whatever begins at the first node comes before what is past it. -/
theorem before_past (h : spot.address.head? = some 0) : spot.Before (past node later) := by
  obtain ⟨i, rest, hspot⟩ := spot.exists_address
  obtain ⟨j, tail, hlater⟩ := later.exists_address
  obtain rfl : i = 0 := by simpa [hspot] using h
  rw [Before, address, hspot, hlater, List.modifyHead_cons]
  exact .rel (Nat.succ_pos j)

theorem not_past_before_inside : ¬ (past node later).Before (inside name attrs spot after) := by
  obtain ⟨j, tail, hlater⟩ := later.exists_address
  simp [Before, address, hlater, List.cons_lex_cons_iff]

/-- Two elements of a tree are the same, or one comes before the other. -/
theorem before_trichotomy (hspot : spot.IsIn tree) (hother : other.IsIn tree) :
    spot.Before other ∨ spot = other ∨ other.Before spot := by
  induction spot generalizing other tree with
  | here name attrs after =>
      obtain ⟨body, rfl⟩ := hspot
      rcases isIn_cons hother with
        ⟨_, _, _, hnode, rfl⟩ | ⟨_, _, _, inner, hnode, rfl, -⟩ | ⟨later, rfl, -⟩
      · obtain ⟨rfl, rfl, -⟩ := Node.element.inj hnode
        exact Or.inr (Or.inl rfl)
      · obtain ⟨rfl, rfl, -⟩ := Node.element.inj hnode
        exact Or.inl here_before_inside
      · exact Or.inl (before_past rfl)
  | inside name attrs spot after ih =>
      obtain ⟨body, rfl⟩ := hspot
      rcases isIn_cons hother with
        ⟨_, _, _, hnode, rfl⟩ | ⟨_, _, _, inner, hnode, rfl, hinner⟩ | ⟨later, rfl, -⟩
      · obtain ⟨rfl, rfl, -⟩ := Node.element.inj hnode
        exact Or.inr (Or.inr here_before_inside)
      · obtain ⟨rfl, rfl, rfl⟩ := Node.element.inj hnode
        rw [inside_before_inside_iff, inside_before_inside_iff, inside.injEq]
        simpa using ih ⟨body, rfl⟩ hinner
      · exact Or.inl (before_past rfl)
  | past before spot ih =>
      obtain ⟨body, rfl⟩ := hspot
      rcases isIn_cons hother with
        ⟨_, _, _, -, rfl⟩ | ⟨_, _, _, inner, -, rfl, -⟩ | ⟨later, rfl, hlater⟩
      · exact Or.inr (Or.inr (before_past rfl))
      · exact Or.inr (Or.inr (before_past rfl))
      · rw [past_before_past_iff, past_before_past_iff, past.injEq]
        simpa using ih ⟨body, rfl⟩ hlater

/-- There is at most one first selected element. -/
theorem IsFirst.unique (h : spot.IsFirst selector tree) (hother : other.IsFirst selector tree) :
    other = spot := by
  rcases before_trichotomy h.mem hother.mem with hbefore | rfl | hbefore
  · exact absurd hbefore (hother.not_before spot h.mem h.selected)
  · rfl
  · exact absurd hbefore (h.not_before other hother.mem hother.selected)

/-! ## The first selected element -/

/-- No element of the tree is selected. -/
def NoneSelected (selector : Selector) (tree : List Node) : Prop :=
  ∀ spot : Spot, spot.IsIn tree → ¬ spot.IsSelected selector

theorem noneSelected_nil : NoneSelected selector [] :=
  fun spot hspot => absurd hspot spot.not_isIn_nil

/-- A node that is no element is passed over. -/
theorem noneSelected_cons_of_kind
    (hkind : node.kind ≠ .element) (h : NoneSelected selector nodes) :
    NoneSelected selector (node :: nodes) := by
  intro spot hspot
  rcases isIn_cons hspot with ⟨_, _, _, rfl, -⟩ | ⟨_, _, _, _, rfl, -, -⟩ | ⟨later, rfl, hlater⟩
  · exact absurd rfl hkind
  · exact absurd rfl hkind
  · exact h later hlater

theorem noneSelected_element
    (hname : selector.selects name attrs = false) (hchildren : NoneSelected selector children)
    (h : NoneSelected selector nodes) :
    NoneSelected selector (.element name attrs children :: nodes) := by
  intro spot hspot
  rcases isIn_cons hspot with
    ⟨_, _, _, hnode, rfl⟩ | ⟨_, _, _, inner, hnode, rfl, hinner⟩ | ⟨later, rfl, hlater⟩
  · obtain ⟨rfl, rfl, -⟩ := Node.element.inj hnode
    simp [IsSelected, hname]
  · obtain ⟨rfl, rfl, rfl⟩ := Node.element.inj hnode
    exact hchildren inner hinner
  · exact h later hlater

theorem isFirst_here (hname : selector.selects name attrs = true) :
    (here name attrs after).IsFirst selector (.element name attrs children :: after) where
  mem := ⟨children, rfl⟩
  selected := hname
  not_before other _ _ := other.not_before_here

theorem isFirst_inside
    (hname : selector.selects name attrs = false) (h : spot.IsFirst selector children) :
    (inside name attrs spot after).IsFirst selector (.element name attrs children :: after) where
  mem := by
    obtain ⟨body, rfl⟩ := h.mem
    exact ⟨body, rfl⟩
  selected := h.selected
  not_before := by
    intro other hother hselected
    rcases isIn_cons hother with
      ⟨_, _, _, hnode, rfl⟩ | ⟨_, _, _, inner, hnode, rfl, hinner⟩ | ⟨later, rfl, hlater⟩
    · obtain ⟨rfl, rfl, -⟩ := Node.element.inj hnode
      simp [IsSelected, hname] at hselected
    · obtain ⟨rfl, rfl, rfl⟩ := Node.element.inj hnode
      rw [inside_before_inside_iff]
      exact h.not_before inner hinner hselected
    · exact not_past_before_inside

theorem isFirst_past
    (hnode : NoneSelected selector [node]) (h : spot.IsFirst selector nodes) :
    (past node spot).IsFirst selector (node :: nodes) where
  mem := by
    obtain ⟨body, rfl⟩ := h.mem
    exact ⟨body, rfl⟩
  selected := h.selected
  not_before := by
    intro other hother hselected
    rcases isIn_cons hother with
      ⟨name, attrs, children, rfl, rfl⟩ | ⟨name, attrs, _, inner, rfl, rfl, body, rfl⟩ |
        ⟨later, rfl, hlater⟩
    · exact absurd hselected (hnode (here name attrs []) ⟨children, rfl⟩)
    · exact absurd hselected (hnode (inside name attrs inner []) ⟨body, rfl⟩)
    · rw [past_before_past_iff]
      exact h.not_before later hlater hselected

end Spot

/-! ## Extraction -/

namespace Node

open Spot

variable {selector : Selector} {spot : Spot} {tree nodes children body rest : List Node}

/-- What extraction gives back: nothing if no element is selected, and otherwise the children of the
first selected element and the tree with a content node in their place. -/
def Extracts (selector : Selector) (tree : List Node) : Option (List Node × List Node) → Prop
  | none => NoneSelected selector tree
  | some (body, rest) => ∃ spot : Spot, spot.IsFirst selector tree ∧ spot.fill body = tree ∧
      spot.fill [.content] = rest

/-- A node without selected elements is passed over. -/
theorem Extracts.past
    {node : Node} {result : Option (List Node × List Node)}
    (hnode : NoneSelected selector [node])
    (hnone : NoneSelected selector nodes → NoneSelected selector (node :: nodes))
    (h : Extracts selector nodes result) :
    Extracts selector (node :: nodes)
      (result.map fun (body, nodes) => (body, node :: nodes)) := by
  match result, h with
  | none, h => exact hnone h
  | some (body, rest), ⟨spot, hfirst, hbody, hrest⟩ =>
      refine ⟨Spot.past node spot, isFirst_past hnode hfirst, ?_, ?_⟩
      · rw [fill, hbody]
      · rw [fill, hrest]

theorem extracts_extractList? (selector : Selector) (tree : List Node) :
    Extracts selector tree (extractList? selector tree) := by
  induction tree using Node.inductionOn with
  | nil => exact noneSelected_nil
  | element name attrs children nodes ihChildren ih =>
      rw [extractList?, extract?]
      cases hname : selector.selects name attrs with
      | true => exact ⟨here name attrs nodes, isFirst_here hname, rfl, rfl⟩
      | false =>
          cases hinside : extractList? selector children with
          | none =>
              rw [hinside] at ihChildren
              exact ih.past (noneSelected_element hname ihChildren noneSelected_nil)
                (noneSelected_element hname ihChildren)
          | some found =>
              rw [hinside] at ihChildren
              obtain ⟨spot, hfirst, hbody, hrest⟩ := ihChildren
              refine ⟨inside name attrs spot nodes, isFirst_inside hname hfirst, ?_, ?_⟩
              · rw [fill, hbody]
              · rw [fill, hrest]
  | doctype _ nodes ih | text _ nodes ih | comment _ nodes ih | var _ nodes ih
  | conditional _ _ nodes _ ih | content nodes ih | markdown _ nodes ih | loop _ _ nodes _ ih =>
      have hkind : ∀ {node : Node} {nodes : List Node}, node.kind ≠ .element →
          NoneSelected selector nodes → NoneSelected selector (node :: nodes) :=
        noneSelected_cons_of_kind
      exact ih.past (hkind (by simp [kind]) noneSelected_nil) (hkind (by simp [kind]))

/-! ## Putting the body back -/

section

variable (hcontent : .content ∉ preorderList (spot.fill children))

include hcontent

/-- The body takes the place of a content node that stands for the children of an element. -/
theorem expandList_fill (body : List Node) :
    expandList body (spot.fill [.content]) = spot.fill body := by
  induction spot with
  | here name attrs after =>
      simp only [fill, preorderList, preorder, List.mem_append, not_or] at hcontent
      simp [fill, expandList, expand, expandList_of_notMem _ hcontent.2]
  | inside name attrs spot after ih =>
      simp only [fill, preorderList, preorder, List.mem_append, List.mem_cons, reduceCtorEq,
        false_or, not_or] at hcontent
      simp [fill, expandList, expand, ih hcontent.1, expandList_of_notMem _ hcontent.2]
  | past before spot ih =>
      simp only [fill, preorderList, List.mem_append, not_or] at hcontent
      have hbefore : expandList body [before] = [before] := by
        apply expandList_of_notMem
        simpa [preorderList] using hcontent.1
      rw [expandList, expandList, List.append_nil] at hbefore
      rw [fill, fill, expandList, hbefore, ih hcontent.2]
      rfl

theorem count_content_fill : (preorderList (spot.fill [.content])).count .content = 1 := by
  induction spot with
  | here name attrs after =>
      simp only [fill, preorderList, preorder, List.mem_append, not_or] at hcontent
      simp [fill, preorderList, preorder, List.count_eq_zero_of_not_mem hcontent.2]
  | inside name attrs spot after ih =>
      simp only [fill, preorderList, preorder, List.mem_append, List.mem_cons, reduceCtorEq,
        false_or, not_or] at hcontent
      simp [fill, preorderList, preorder, ih hcontent.1, List.count_eq_zero_of_not_mem hcontent.2]
  | past before spot ih =>
      simp only [fill, preorderList, List.mem_append, not_or] at hcontent
      simp [fill, preorderList, ih hcontent.2, List.count_eq_zero_of_not_mem hcontent.1]

end

end Node

/-- If an element is selected, there is one first of them; its children are taken out, a content
node comes in their place and nothing else changes, so that putting the body in place of the content
node gives the tree back.  Otherwise nothing is taken out and the tree stays as it is. -/
theorem body_of_first_selected
    (selector : Selector) (pathname : String) {tree : List Node}
    (hcontent : .content ∉ Node.preorderList tree) :
    ((∃ spot : Spot, spot.IsIn tree ∧ spot.IsSelected selector) →
      ∃ (spot : Spot) (body : List Node),
        spot.IsFirst selector tree ∧ (∀ other : Spot, other.IsFirst selector tree → other = spot) ∧
          spot.fill body = tree ∧
          Node.extractList? selector tree = some (body, spot.fill [.content]) ∧
          Document.ofTree pathname (some selector) tree =
            ⟨pathname, spot.fill [.content], body⟩ ∧
          (Node.preorderList (spot.fill [.content])).count .content = 1 ∧
          Node.expandList body (spot.fill [.content]) = tree) ∧
      ((∀ spot : Spot, spot.IsIn tree → ¬ spot.IsSelected selector) →
        Node.extractList? selector tree = none ∧
          Document.ofTree pathname (some selector) tree = ⟨pathname, tree, []⟩) := by
  have hextracts := Node.extracts_extractList? selector tree
  constructor
  · rintro ⟨known, hknown, hselected⟩
    cases hfound : Node.extractList? selector tree with
    | none =>
        rw [hfound] at hextracts
        exact absurd hselected (hextracts known hknown)
    | some found =>
        rw [hfound] at hextracts
        obtain ⟨body, rest⟩ := found
        obtain ⟨spot, hfirst, rfl, rfl⟩ := hextracts
        refine ⟨spot, body, hfirst, fun other hother => hfirst.unique hother, rfl, rfl, ?_,
          Node.count_content_fill hcontent, Node.expandList_fill hcontent body⟩
        rw [Document.ofTree, Option.bind_some, hfound]
  · intro hnone
    cases hfound : Node.extractList? selector tree with
    | some found =>
        rw [hfound] at hextracts
        obtain ⟨spot, hfirst, -⟩ := hextracts
        exact absurd hfirst.selected (hnone spot hfirst.mem)
    | none =>
        refine ⟨rfl, ?_⟩
        rw [Document.ofTree, Option.bind_some, hfound]

/-- The second of three articles has the class; the first has it only as part of another one, and
the third comes too late. -/
theorem body_of_first_selected_article :
    let article (classes : String) (children : List Node) : Node :=
      .element "article" [.static "class" classes] children
    let outline (children : List Node) : List Node :=
      [.doctype "html",
        .element "main" []
          [article "posts" [.element "p" [] []],
            .element "div" [] [article " wide  post" children, .text "end"],
            article "post" [.text "late"]]]
    let body : List Node := [.element "p" [] [.text "body"], .var "var1"]
    .content ∉ Node.preorderList (outline body) ∧
      (∃ spot : Spot, spot.IsIn (outline body) ∧ spot.IsSelected (.class "post")) ∧
      ∃ spot : Spot, spot.IsFirst (.class "post") (outline body) ∧
        spot.fill body = outline body ∧ spot.fill [.content] = outline [.content] ∧
        Document.ofTree "a.html" (some (.class "post")) (outline body) =
          ⟨"a.html", outline [.content], body⟩ := by
  intro article outline body
  have hcontent : .content ∉ Node.preorderList (outline body) := by decide
  have hselected : ∃ spot : Spot, spot.IsIn (outline body) ∧ spot.IsSelected (.class "post") := by
    refine ⟨.past (.doctype "html") (.inside "main" [] (.past (article "posts" [.element "p" [] []])
      (.inside "div" [] (.here "article" [.static "class" " wide  post"] [.text "end"])
        [article "post" [.text "late"]])) []), ⟨body, rfl⟩, ?_⟩
    show Selector.selects (.class "post") "article" [.static "class" " wide  post"] = true
    decide
  obtain ⟨spot, taken, hfirst, -, hfill, hextract, hdocument, -⟩ :=
    (body_of_first_selected (.class "post") "a.html" hcontent).1 hselected
  have hfound :
      Node.extractList? (.class "post") (outline body) = some (body, outline [.content]) := by
    decide
  obtain ⟨rfl, hrest⟩ := Prod.mk.inj (Option.some.inj (hextract.symm.trans hfound))
  rw [hrest] at hdocument
  exact ⟨hcontent, hselected, spot, hfirst, hfill, hrest, hdocument⟩

end Stencil
