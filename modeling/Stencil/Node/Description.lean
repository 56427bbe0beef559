import Stencil.Node
import Stencil.Text.Quoted

/-!
# Short descriptions of nodes

How messages name a node: an element by its tag, a literal by its kind and its quoted value, a
placeholder by its kind and its reference.
-/

namespace Stencil.Node

/-- A label for messages, such as `<h1>` or `text "Hello"`. -/
def describe : Node → String
  | .element name .. => "<" ++ name ++ ">"
  | .text value => "text " ++ Text.quoted value
  | .doctype value => "doctype " ++ Text.quoted value
  | .comment value => "comment " ++ Text.quoted value
  | .content => "content"
  | .var reference => "variable " ++ reference
  | .conditional reference _ => "conditional " ++ reference
  | .markdown reference => "markdown-variable " ++ reference
  | .loop reference _ => "loop " ++ reference

end Stencil.Node
