import Stencil.Json

/-!
# Warnings

Findings that do not stop an inference: an attribute that only one of two matched elements has, and
a node of a page that does not fit the layout.
-/

namespace Stencil

/-- One of the two inputs of a merge. -/
inductive Side where
  | first | second
  deriving DecidableEq, Repr, Inhabited

/-- The word for a side. -/
def Side.label : Side → String
  | .first => "first"
  | .second => "second"

/-- A finding about the inputs that does not stop the inference. -/
inductive Warning where
  /-- An attribute of a matched element was dropped because the other element lacks it. -/
  | unresolvedAttribute (element name : String) (side : Side)
  /-- A page and a layout do not fit together. -/
  | unmatchedNode (pathname detail : String)
  deriving DecidableEq, Repr, Inhabited

namespace Warning

/-- The text shown to the user. -/
def message : Warning → String
  | .unresolvedAttribute element name side =>
    "dropped attribute `" ++ name ++ "` on <" ++ element ++ ">: only present on the " ++
      side.label ++ " side"
  | .unmatchedNode pathname detail => pathname ++ ": " ++ detail

/-- The written form of a warning. -/
def toJson : Warning → Json
  | .unresolvedAttribute element name side =>
    .object
      [("kind", .string "unresolved-attribute"), ("element", .string element),
        ("name", .string name), ("side", .string side.label)]
  | .unmatchedNode pathname detail =>
    .object
      [("kind", .string "unmatched-node"), ("pathname", .string pathname),
        ("detail", .string detail)]

end Warning

end Stencil
