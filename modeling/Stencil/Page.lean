import Stencil.Layout
import Stencil.Record.Json

/-!
# Pages

A page is a document seen through a layout: its values for the references of the layout, its body,
and the tree it was read from, so that it can be measured against another layout at any time.
-/

namespace Stencil

/-- The values and the body of one document, with the tree they were taken from. -/
structure Page where
  pathname : String
  data : Record
  /-- The body, written where the layout has a content node. -/
  content : List Node
  /-- The tree of the document, in which a content node stands for the body. -/
  source : List Node
  deriving Repr, Inhabited

namespace Page

/-- The written form of a page, without its source. -/
def toJson (page : Page) : Json :=
  .object
    [("pathname", .string page.pathname), ("data", page.data.toJson),
      ("content", Node.treeToJson page.content)]

end Page

end Stencil
