import Stencil.Node

/-!
# Documents

A document is a page of markup, read once.
-/

namespace Stencil

/-- A document: its tree, in which a content node stands for the body, and the body. -/
structure Document where
  pathname : String
  tree : List Node
  /-- The children of the body element, none if no body was taken out. -/
  content : List Node := []
  deriving DecidableEq, Repr, Inhabited

end Stencil
