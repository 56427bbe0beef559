import Stencil.Node.Json

/-!
# Layouts

A layout is the tree that the pages of a collection share.  Its references are those of its
placeholders in document order, the ones inside loop templates apart: they name fields of the
records of the loop.
-/

namespace Stencil

/-- The reference of a placeholder attribute. -/
def Attribute.references (attrs : List Attribute) : List String :=
  attrs.filterMap (·.value.reference?)

namespace Node

mutual

/-- The references at and below a node, loop templates left out. -/
def references : Node → List String
  | .element _ attrs children => Attribute.references attrs ++ referencesList children
  | .conditional reference child => reference :: references child
  | .var reference | .markdown reference | .loop reference _ => [reference]
  | .doctype _ | .text _ | .comment _ | .content => []

/-- The references of a tree, loop templates left out. -/
def referencesList : List Node → List String
  | [] => []
  | node :: nodes => references node ++ referencesList nodes

end

end Node

/-- A tree shared by all pages of a collection. -/
structure Layout where
  tree : List Node
  deriving DecidableEq, Repr, Inhabited

namespace Layout

/-- All references of page level in document order. -/
def references (layout : Layout) : List String :=
  Node.referencesList layout.tree

/-- The written form of a layout. -/
def toJson (layout : Layout) : Json :=
  .object [("tree", Node.treeToJson layout.tree)]

/-- Read a layout.  Its tree is given once, by name or by position. -/
def ofJson? : Json → Option Layout
  | .object fields => do
    if Json.areSingle ["tree"] fields then
      return ⟨← Node.listOfJson? (← fields.lookup "tree")⟩
    else none
  | .array [tree] => do return ⟨← Node.listOfJson? tree⟩
  | _ => none

end Layout

end Stencil
