import Mathlib.Data.List.DropRight
import Stencil.Proofs.Document.Numbering
import Stencil.Proofs.Document.Rendering

/-!
# Walking through the anchor and the common tree

The common tree of a comparison has a node for every node of the anchor, in the same order, and
insertions in between.  `Reaches` walks through both trees in step and keeps count: past a node of
the anchor and the node that stands for it, past an insertion, or from an element to its children.

A position says where in the anchor the walk is, in document order (`Reaches.exists_listing`) and
among siblings (`Reaches.exists_siblings`), so the nodes that the walk passes tell which node of the
anchor a node of the common tree stands for.  On the common tree of a comparison the walk never
leaves the rules of the comparison (`Reaches.exists_converges`), and it comes to every reference
(`Converges.exists_reaches`).
-/

namespace Stencil

/-- The references of the node itself, without those below it. -/
def Node.ownReferences : Node → List String
  | .element _ attrs _ => Attribute.references attrs
  | .var reference | .markdown reference | .conditional reference _ | .loop reference _ =>
    [reference]
  | .doctype _ | .text _ | .comment _ | .content => []

namespace Comparison

/-- The node is one that the anchor lacks: a conditional that does not show with the values of the
anchor. -/
def isInserted (values : Record) : Node → Bool
  | .conditional reference _ => !(values.get? reference).any Value.isTruthy
  | _ => false

theorem isInserted_conditional {values : Record} {reference : String} {shows : Bool} {child : Node}
    (h : values.get? reference = some (.flag shows)) :
    isInserted values (.conditional reference child) = !shows := by
  rw [isInserted, h]
  rfl

/-- `Reaches anchor common values position as nodes`: walking through the anchor and the common tree
in step, one comes to the position, with the anchor siblings `as` and the common siblings `nodes`
ahead. -/
inductive Reaches (anchor common : List Node) (values : Record) :
    Position → List Node → List Node → Prop
  | start : Reaches anchor common values {} anchor common
  | past {position : Position} {a node : Node} {as nodes : List Node}
      (h : Reaches anchor common values position (a :: as) (node :: nodes))
      (hkept : isInserted values node = false) :
      Reaches anchor common values (position.past a) as nodes
  | inserted {position : Position} {node : Node} {as nodes : List Node}
      (h : Reaches anchor common values position as (node :: nodes))
      (hinserted : isInserted values node = true) :
      Reaches anchor common values position.inserted as nodes
  | inside {position : Position} {name : String} {attrs shared : List Attribute}
      {children merged as nodes : List Node}
      (h : Reaches anchor common values position
        (.element name attrs children :: as) (.element name shared merged :: nodes)) :
      Reaches anchor common values (position.inside attrs) children merged

/-- The node of the common tree stands for the node `a` of the anchor, which has number `n`. -/
def StandsFor (anchor common : List Node) (values : Record) (n : Nat) (a node : Node) : Prop :=
  ∃ position as nodes, Reaches anchor common values position (a :: as) (node :: nodes) ∧
    isInserted values node = false ∧ position.before.nodes + 1 = n

/-- The siblings of the common tree merged from the children of the anchor node with the given
number, or for zero those at the top. -/
def Siblings (anchor common : List Node) (values : Record) (parent : Nat) (merged : List Node) :
    Prop :=
  parent = 0 ∧ merged = common ∨
    ∃ name attrs shared children,
      Numbered 0 (Node.preorderList anchor) parent (.element name attrs children) ∧
      StandsFor anchor common values parent
        (.element name attrs children) (.element name shared merged)

/-! ## What a position tells -/

section Reaches

variable {anchor common as nodes : List Node} {values : Record} {position : Position}

/-- A position counts what comes before it in document order. -/
theorem Reaches.exists_listing (h : Reaches anchor common values position as nodes) :
    ∃ earlier later, Node.preorderList anchor = earlier ++ (Node.preorderList as ++ later) ∧
      position.before = .total earlier := by
  induction h with
  | start => exact ⟨[], [], by simp, rfl⟩
  | @past position a _ as _ _ _ ih =>
      obtain ⟨earlier, later, hlisting, hbefore⟩ := ih
      refine ⟨earlier ++ a.preorder, later, ?_, ?_⟩
      · rw [hlisting, Node.preorderList, List.append_assoc, List.append_assoc]
      · rw [Position.past, hbefore, Node.ordinals_eq_total, Ordinals.total_append]
  | inserted _ _ ih => exact ih
  | @inside position name attrs _ children _ as _ _ ih =>
      obtain ⟨earlier, later, hlisting, hbefore⟩ := ih
      refine ⟨earlier ++ [.element name attrs children], Node.preorderList as ++ later, ?_, ?_⟩
      · rw [hlisting, Node.preorderList, Node.preorder]
        simp
      · rw [Position.inside, hbefore, Ordinals.total_append, Ordinals.total_singleton]
        rfl

/-- The next anchor node, with what comes before it in document order. -/
theorem Reaches.exists_listing_cons {a : Node}
    (h : Reaches anchor common values position (a :: as) nodes) :
    ∃ earlier later, Node.preorderList anchor = earlier ++ a :: later ∧
      position.before = .total earlier := by
  obtain ⟨earlier, later, hlisting, hbefore⟩ := h.exists_listing
  have hhead : ∃ below, a.preorder = a :: below := by
    cases a <;> exact ⟨_, rfl⟩
  obtain ⟨below, hbelow⟩ := hhead
  refine ⟨earlier, below ++ (Node.preorderList as ++ later), ?_, hbefore⟩
  rw [hlisting, Node.preorderList, hbelow]
  simp

theorem StandsFor.numbered {n : Nat} {a node : Node}
    (h : StandsFor anchor common values n a node) :
    Numbered 0 (Node.preorderList anchor) n a := by
  obtain ⟨position, as, nodes, hreach, -, rfl⟩ := h
  obtain ⟨earlier, later, hlisting, hbefore⟩ := hreach.exists_listing_cons
  rw [hbefore]
  exact Node.numbered_preorderList hlisting

/-- A position counts the siblings that come before it: those that stand for anchor nodes, and the
insertions after the last of them. -/
theorem Reaches.exists_siblings (h : Reaches anchor common values position as nodes) :
    ∃ passed, Siblings anchor common values position.parent (passed ++ nodes) ∧
      passed.countP (!isInserted values ·) = position.child ∧
      (passed.rtakeWhile (isInserted values)).length = position.insertions := by
  induction h with
  | start => exact ⟨[], Or.inl ⟨rfl, rfl⟩, rfl, rfl⟩
  | @past position _ node _ _ _ hkept ih =>
      -- The insertions counted so far come before the node that is passed.
      obtain ⟨passed, hsiblings, hchild, -⟩ := ih
      refine ⟨passed ++ [node], ?_, ?_, ?_⟩
      · rwa [List.append_assoc]
      · rw [List.countP_append, hchild, List.countP_singleton, hkept]
        rfl
      · rw [List.rtakeWhile_concat_neg _ _ _ (by rw [hkept]; exact Bool.false_ne_true)]
        rfl
  | @inserted position node _ _ _ hinserted ih =>
      obtain ⟨passed, hsiblings, hchild, hinsertions⟩ := ih
      refine ⟨passed ++ [node], ?_, ?_, ?_⟩
      · rwa [List.append_assoc]
      · rw [List.countP_append, hchild, List.countP_singleton, hinserted]
        rfl
      · rw [List.rtakeWhile_concat_pos _ _ _ hinserted, List.length_append, hinsertions]
        rfl
  | inside hreach _ =>
      have hstands : StandsFor anchor common values _ _ _ := ⟨_, _, _, hreach, rfl, rfl⟩
      exact ⟨[], Or.inr ⟨_, _, _, _, hstands.numbered, hstands⟩, rfl, rfl⟩

/-- What is ahead is a part of the common tree. -/
theorem Reaches.preorderList_subset (h : Reaches anchor common values position as nodes) :
    Node.preorderList nodes ⊆ Node.preorderList common := by
  induction h with
  | start => exact List.Subset.refl _
  | past _ _ ih | inserted _ _ ih =>
      intro node hnode
      exact ih (List.mem_append_right _ hnode)
  | inside _ ih =>
      intro node hnode
      exact ih (List.mem_append_left _ (List.mem_cons_of_mem _ hnode))

theorem Reaches.mem_preorderList {node : Node}
    (h : Reaches anchor common values position as (node :: nodes)) :
    node ∈ Node.preorderList common := by
  apply h.preorderList_subset
  rw [Node.preorderList]
  cases node <;> simp [Node.preorder]

end Reaches

/-! ## The walk follows the comparison -/

section Converges

variable {anchor common other : List Node} {values : Record} {notes : List Note}

/-- A kept node is not an insertion. -/
theorem Keeps.not_inserted {a b : Node} (h : Keeps a b) (values : Record) :
    isInserted values a = false := by
  cases h <;> rfl

/-- Wherever the walk comes to, the comparison went on from there. -/
theorem Reaches.exists_converges
    (hstart : Converges {} anchor other common notes) (hvalues : Holds values .first notes)
    {position : Position} {as nodes : List Node}
    (h : Reaches anchor common values position as nodes) :
    ∃ bs later, Converges position as bs nodes later ∧ Holds values .first later := by
  induction h with
  | start => exact ⟨other, notes, hstart, hvalues⟩
  | past _ hkept ih =>
      obtain ⟨bs, later, hconverges, hholds⟩ := ih
      cases hconverges with
      | keep _ hrest => exact ⟨_, _, hrest, hholds⟩
      | var _ hrest => exact ⟨_, _, hrest, (holds_placeholder.mp hholds).2⟩
      | element _ _ _ _ hrest => exact ⟨_, _, hrest, (holds_append.mp hholds).2⟩
      | lone _ _ hrest => exact ⟨_, _, hrest, (holds_placeholder.mp hholds).2⟩
      | extra =>
          rw [isInserted_conditional (holds_placeholder.mp hholds).1] at hkept
          exact absurd hkept.symm Bool.false_ne_true
  | inserted _ hinserted ih =>
      obtain ⟨bs, later, hconverges, hholds⟩ := ih
      cases hconverges with
      | keep hkeeps _ =>
          exact absurd ((hkeeps.not_inserted values).symm.trans hinserted) Bool.false_ne_true
      | var => exact absurd hinserted Bool.false_ne_true
      | element => exact absurd hinserted Bool.false_ne_true
      | lone =>
          rw [isInserted_conditional (holds_placeholder.mp hholds).1] at hinserted
          exact absurd hinserted Bool.false_ne_true
      | extra _ _ hrest => exact ⟨_, _, hrest, (holds_placeholder.mp hholds).2⟩
  | inside _ ih =>
      obtain ⟨bs, later, hconverges, hholds⟩ := ih
      cases hconverges with
      | keep hkeeps _ => cases hkeeps
      | element _ _ _ hinside _ =>
          have hbefore := (holds_append.mp hholds).1
          exact ⟨_, _, hinside, (holds_append.mp hbefore).2⟩

/-- The walk comes to every reference of the common tree. -/
theorem Converges.exists_reaches
    {position : Position} {as bs nodes : List Node} {later : List Note} {reference : String}
    (h : Converges position as bs nodes later) (hvalues : Holds values .first later)
    (hreach : Reaches anchor common values position as nodes)
    (hreference : reference ∈ Node.referencesList nodes) :
    ∃ position as node nodes, Reaches anchor common values position as (node :: nodes) ∧
      reference ∈ node.ownReferences := by
  -- Every rule is a step of the walk; the anchor's value of a conditional decides which one.
  induction h with
  | nil => exact absurd hreference List.not_mem_nil
  | keep hkeeps _ ih =>
      apply ih hvalues (hreach.past (hkeeps.not_inserted values))
      cases hkeeps <;> exact hreference
  | var _ _ ih =>
      rcases List.mem_append.mp hreference with hhere | hrest
      · exact ⟨_, _, _, _, hreach, hhere⟩
      · exact ih (holds_placeholder.mp hvalues).2 (hreach.past rfl) hrest
  | element _ _ _ _ _ ihInside ih =>
      obtain ⟨hbefore, hafter⟩ := holds_append.mp hvalues
      rw [Node.referencesList, Node.references, List.mem_append, List.mem_append] at hreference
      rcases hreference with (hattrs | hinside) | hrest
      · exact ⟨_, _, _, _, hreach, hattrs⟩
      · exact ihInside (holds_append.mp hbefore).2 hreach.inside hinside
      · exact ih hafter (hreach.past rfl) hrest
  | lone hconcrete _ _ ih =>
      obtain ⟨hshows, hafter⟩ := holds_placeholder.mp hvalues
      rw [Node.referencesList_conditional_of_concrete hconcrete] at hreference
      rcases List.mem_cons.mp hreference with hguard | hrest
      · exact ⟨_, _, _, _, hreach, List.mem_singleton.mpr hguard⟩
      · exact ih hafter (hreach.past (isInserted_conditional hshows)) hrest
  | extra hconcrete _ _ ih =>
      obtain ⟨hhidden, hafter⟩ := holds_placeholder.mp hvalues
      rw [Node.referencesList_conditional_of_concrete hconcrete] at hreference
      rcases List.mem_cons.mp hreference with hguard | hrest
      · exact ⟨_, _, _, _, hreach, List.mem_singleton.mpr hguard⟩
      · exact ih hafter (hreach.inserted (isInserted_conditional hhidden)) hrest

end Converges

end Comparison

end Stencil
