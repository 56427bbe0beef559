import Stencil.Page

/-!
# Rendering

Rendering fills a layout with the values and the body of a page and gives back a concrete tree.
-/

namespace Stencil

/-- The text stored under a reference. -/
def Record.text? (record : Record) (reference : String) : Option String :=
  (record.get? reference).bind Value.text?

/-- The attribute with its placeholder filled in.  A conditional attribute without a text is left
out; a variable one is then empty. -/
def Attribute.render? (scope : Record) : Attribute → Option Attribute
  | ⟨name, .literal value⟩ => some (static name value)
  | ⟨name, .var reference⟩ => some (static name ((scope.text? reference).getD ""))
  | ⟨name, .conditional reference⟩ => (scope.text? reference).map (static name)

namespace Node

mutual

/-- The nodes that a layout node becomes when placeholders are looked up in `scope` and the body
is `content`. -/
def render (content : List Node) (scope : Record) : Node → List Node
  | .var reference | .markdown reference => ((scope.text? reference).map text).toList
  | .conditional reference child =>
    match scope.get? reference with
    | some value => if value.isTruthy then render content scope child else []
    | none => []
  | .loop reference template =>
    match scope.get? reference with
    | some (.list records) => records.flatMap fun record => render content record template
    | _ => []
  | .content => content
  | .element name attrs children =>
    [.element name (attrs.filterMap (Attribute.render? scope))
      (renderList content scope children)]
  | .doctype value => [.doctype value]
  | .text value => [.text value]
  | .comment value => [.comment value]

/-- The nodes that a list of layout nodes becomes. -/
def renderList (content : List Node) (scope : Record) : List Node → List Node
  | [] => []
  | node :: nodes => render content scope node ++ renderList content scope nodes

end

end Node

namespace Page

/-- The layout filled with the values and the body of the page. -/
def render (page : Page) (layout : Layout) : List Node :=
  Node.renderList page.content page.data layout.tree

end Page

end Stencil
