import Stencil.Alignment
import Stencil.Attribute.Pairing
import Stencil.Layout
import Stencil.Node.Slot

/-!
# Merging layouts

Sibling lists are aligned by slots.  Nodes that share a slot are merged: a conditional keeps its
guard, a variable takes in the literal it meets, elements are merged attribute by attribute and
child by child.  Nodes without a counterpart are kept as they are.
-/

namespace Stencil.Node

/-- The merge of two unguarded nodes that are not both elements: a variable if there is one,
otherwise the first. -/
def absorb (first second : Node) : Node :=
  if first.kind = .var then first
  else if second.kind = .var then second
  else first

/-- A node of the first list, ready to be merged with a counterpart. -/
structure Mergeable where
  node : Node
  mergeWith : Node → Noted Warning Node

/-- The merged list of siblings. -/
def mergeSiblings (first : List Mergeable) (second : List Node) : Noted Warning (List Node) :=
  Noted.all <|
    (Alignment.steps (fun a b => equivalent a.node b) first second).map fun
      | .pair a b => a.mergeWith b
      | .first a _ => pure a.node
      | .second b _ => pure b

mutual

/-- The node that two nodes of one slot become.  The guards are those of the first node, then
those that the second has beyond their number. -/
def merge : Node → Node → Noted Warning Node
  | .conditional reference child, other => (child.merge other.peel).map (.conditional reference)
  | .element name attrs children, other =>
    match other.core with
    | .element _ otherAttrs otherChildren => do
      let attrs ← Attribute.reconcile name attrs otherAttrs
      let children ← mergeSiblings (mergeables children) otherChildren
      return guarded other.guards (.element name attrs children)
    | core => return guarded other.guards (absorb (.element name attrs children) core)
  | node, other => return guarded other.guards (absorb node other.core)

/-- Every node of a list, ready to be merged. -/
def mergeables : List Node → List Mergeable
  | [] => []
  | node :: nodes => ⟨node, node.merge⟩ :: mergeables nodes

end

/-- The merge of two sibling lists. -/
def align (first second : List Node) : Noted Warning (List Node) :=
  mergeSiblings (mergeables first) second

end Stencil.Node

namespace Stencil.Layout

/-- The layout that takes in both layouts. -/
def merge (first second : Layout) : Noted Warning Layout :=
  (Node.align first.tree second.tree).map Layout.mk

end Stencil.Layout
