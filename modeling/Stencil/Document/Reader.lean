import Stencil.Document
import Stencil.Markup.Reader
import Stencil.Selector

/-!
# Reading documents

A document is read from markup.  With a selector, the children of the first selected element
become its body.
-/

namespace Stencil

namespace Document

/-- The document of a tree, with the body taken out if an element is selected. -/
def ofTree (pathname : String) (selector : Option Selector) (tree : List Node) : Document :=
  match selector.bind (Node.extractList? · tree) with
  | none => ⟨pathname, tree, []⟩
  | some (body, tree) => ⟨pathname, tree, body⟩

/-- Read a document.  An error is the place in bytes at which the markup is malformed. -/
def read (collapse : Bool) (selector : Option Selector) (pathname markup : String) :
    Except Nat Document :=
  (Markup.parse collapse markup).map (ofTree pathname selector)

end Document

/-- The text shown to the user when a document cannot be read. -/
def Document.parseFailure (pathname : String) : String :=
  "Failed to parse `" ++ pathname ++ "`"

end Stencil
