import Stencil.Layout

/-!
# Templates

A layout is written as an HTML template: markup interspersed with actions, which the site
generator carries out.  A template is first a list of pieces, in which actions and markup are
still apart, and then a text.
-/

namespace Stencil

namespace Template

/-- Where references are looked up: among the parameters of the page, or in the current record of
a loop. -/
inductive Scope where
  | page | item
  deriving DecidableEq, Repr, Inhabited

/-- The path of a reference in an action. -/
def Scope.path : Scope → String → String
  | .page, reference => ".Params." ++ reference
  | .item, reference => "." ++ reference

/-- An instruction to the site generator. -/
inductive Action where
  | value (path : String)
  | markdown (path : String)
  | ifBegin (path : String)
  | rangeBegin (path : String)
  | blockEnd
  | content
  deriving DecidableEq, Repr, Inhabited

/-- What stands between the braces of an action. -/
def Action.body : Action → String
  | .value path => path
  | .markdown path => path ++ " | markdownify"
  | .ifBegin path => "if " ++ path
  | .rangeBegin path => "range " ++ path
  | .blockEnd => "end"
  | .content => ".Content"

/-- An action between its braces. -/
def Action.text (action : Action) : String :=
  "\x7b\x7b " ++ action.body ++ " \x7d\x7d"

/-- A piece of a template. -/
inductive Piece where
  | markup (text : String)
  | action (instruction : Action)
  deriving DecidableEq, Repr, Inhabited

/-- The text of a piece. -/
def Piece.text : Piece → String
  | .markup text => text
  | .action instruction => instruction.text

/-- The text of a template. -/
def text (pieces : List Piece) : String :=
  String.join (pieces.map Piece.text)

/-! ## Escaping -/

/-- A character of a text, written so that it is no markup. -/
def escapedTextChar (c : Char) : List Char :=
  match c with
  | '&' => ['&', 'a', 'm', 'p', ';']
  | '<' => ['&', 'l', 't', ';']
  | '>' => ['&', 'g', 't', ';']
  | c => [c]

/-- A character of an attribute value, written so that it is no markup and ends no quotes. -/
def escapedValueChar (c : Char) : List Char :=
  match c with
  | '\'' => ['&', 'a', 'p', 'o', 's', ';']
  | '"' => ['&', 'q', 'u', 'o', 't', ';']
  | c => escapedTextChar c

/-- A text as markup. -/
def escapedText (s : String) : String :=
  .ofList (s.toList.flatMap escapedTextChar)

/-- An attribute value as markup. -/
def escapedValue (s : String) : String :=
  .ofList (s.toList.flatMap escapedValueChar)

end Template

open Template

/-- The pieces of an attribute, with the space before it.  An empty literal value is left out. -/
def Attribute.pieces (scope : Scope) : Attribute → List Piece
  | ⟨name, .literal value⟩ =>
    if value = "" then [.markup (" " ++ name)]
    else [.markup (" " ++ name ++ "=\"" ++ escapedValue value ++ "\"")]
  | ⟨name, .var reference⟩ => bound name reference
  | ⟨name, .conditional reference⟩ =>
    .action (.ifBegin (scope.path reference)) :: bound name reference ++ [.action .blockEnd]
where
  /-- The pieces of an attribute whose value is looked up. -/
  bound (name reference : String) : List Piece :=
    [.markup (" " ++ name ++ "=\""), .action (.value (scope.path reference)), .markup "\""]

namespace Node

mutual

/-- The pieces of a node.  With `raw`, text is written as it is. -/
def pieces (scope : Scope) (raw : Bool) : Node → List Piece
  | .doctype value => [.markup ("<!DOCTYPE " ++ value ++ ">")]
  | .element name attrs children =>
    .markup ("<" ++ name) :: attrs.flatMap (Attribute.pieces scope) ++
      if isVoidElement name then [.markup ">"]
      else
        .markup ">" :: piecesList scope (isRawTextElement name) children ++
          [.markup ("</" ++ name ++ ">")]
  | .text value => [.markup (if raw then value else escapedText value)]
  | .comment value => [.markup ("<!-- " ++ value ++ " -->")]
  | .var reference => [.action (.value (scope.path reference))]
  | .markdown reference => [.action (.markdown (scope.path reference))]
  | .conditional reference child =>
    .action (.ifBegin (scope.path reference)) :: pieces scope raw child ++ [.action .blockEnd]
  | .loop reference template =>
    .action (.rangeBegin (scope.path reference)) :: pieces .item raw template ++
      [.action .blockEnd]
  | .content => [.action .content]

/-- The pieces of a list of nodes. -/
def piecesList (scope : Scope) (raw : Bool) : List Node → List Piece
  | [] => []
  | node :: nodes => pieces scope raw node ++ piecesList scope raw nodes

end

/-- The template text of a tree, read at page level. -/
def template (tree : List Node) : String :=
  Template.text (piecesList .page false tree)

end Node

end Stencil
