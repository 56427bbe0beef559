import Stencil.Node
import Stencil.Text.Space

/-!
# From events to a tree

Markup is a sequence of events: text, an element opened, a complete node, an element closed.  The
builder assembles the tree.  Neighbouring texts are one text, an event that closes closes
everything from the nearest open element of its name inwards, or nothing when there is none, and
at the end all open elements are closed.
-/

namespace Stencil.Markup

/-- An event of markup. -/
inductive Event where
  | text (value : List Char)
  | opened (name : String) (attrs : List Attribute)
  | node (node : Node)
  | closed (name : String)
  deriving Repr

/-- An element that is not closed yet; its children come last first. -/
structure OpenElement where
  name : String
  attrs : List Attribute
  children : List Node := []
  deriving Repr

/-- The element with the children met so far. -/
def OpenElement.toNode (element : OpenElement) : Node :=
  .element element.name element.attrs element.children.reverse

/-- A tree under construction.  The nodes of the top level come last first, and the innermost open
element comes first. -/
structure Builder where
  roots : List Node := []
  elements : List OpenElement := []
  /-- Text met since the last event of another kind. -/
  pending : List Char := []
  deriving Repr

namespace Builder

/-- Add a node at the current place. -/
def append (builder : Builder) (node : Node) : Builder :=
  match builder.elements with
  | [] => { builder with roots := node :: builder.roots }
  | element :: outer =>
    { builder with elements := { element with children := node :: element.children } :: outer }

/-- The value of a text node, collapsed unless text is kept as it is. -/
def textValue (collapse : Bool) (text : List Char) : List Char :=
  if collapse then Text.collapsed text else text

/-- Make the pending text a node, unless its value is empty. -/
def flush (collapse : Bool) (builder : Builder) : Builder :=
  let value := textValue collapse builder.pending
  let builder := { builder with pending := [] }
  if value.isEmpty then builder else builder.append (.text (.ofList value))

/-- Close the innermost open element. -/
def pop (builder : Builder) : Builder :=
  match builder.elements with
  | [] => builder
  | element :: outer => { builder with elements := outer }.append element.toNode

/-- Close as many open elements as given. -/
def popMany : Nat → Builder → Builder
  | 0, builder => builder
  | n + 1, builder => popMany n builder.pop

/-- Take in an event. -/
def add (collapse : Bool) (builder : Builder) : Event → Builder
  | .text value => { builder with pending := builder.pending ++ value }
  | .opened name attrs =>
    let builder := builder.flush collapse
    { builder with elements := ⟨name, attrs, []⟩ :: builder.elements }
  | .node node => (builder.flush collapse).append node
  | .closed name =>
    let builder := builder.flush collapse
    match builder.elements.findIdx? (·.name = name) with
    | none => builder
    | some depth => builder.popMany (depth + 1)

/-- Close all open elements and give the tree. -/
def finish (collapse : Bool) (builder : Builder) : List Node :=
  let builder := builder.flush collapse
  (builder.popMany builder.elements.length).roots.reverse

/-- The tree of a sequence of events. -/
def build (collapse : Bool) (events : List Event) : List Node :=
  (events.foldl (add collapse) {}).finish collapse

end Builder

end Stencil.Markup
