import Stencil.Node

/-!
# Slots

Two nodes may share a slot of a layout when they agree under their guards: texts and variables
share with each other, elements with elements of the same name, and otherwise nodes with nodes of
the same kind, texts, variables and doctypes only if they are equal.  Attributes and children play
no part; they are reconciled once the slot is shared.
-/

namespace Stencil.Node

/-- Two nodes without guards may share a slot. -/
def sameSlot : Node → Node → Bool
  | .text _, .var _ | .var _, .text _ => true
  | .doctype a, .doctype b => a == b
  | .var a, .var b => a == b
  | .text a, .text b => a == b
  | .element a .., .element b .. => a == b
  | a, b => a.kind == b.kind

/-- Two nodes may share a slot of a layout. -/
def equivalent (a b : Node) : Bool :=
  sameSlot a.core b.core

end Stencil.Node
