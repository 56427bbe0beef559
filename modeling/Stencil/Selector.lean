import Stencil.Node
import Stencil.Text.Space

/-!
# Selectors

A selector names the element that holds the body of a page, by its tag, its id or one of its
classes.  Extracting the body takes the children of the first element that matches, in document
order, and leaves a single content node in their place.
-/

namespace Stencil

/-- An element selector. -/
inductive Selector where
  | tag (name : String)
  | id (name : String)
  | class (name : String)
  deriving DecidableEq, Repr, Inhabited

namespace Selector

/-- Why a text is not a selector. -/
inductive ParseError where
  | empty
  | unsupported (text : String)
  deriving DecidableEq, Repr, Inhabited

/-- The text shown to the user. -/
def ParseError.message : ParseError → String
  | .empty => "empty selector"
  | .unsupported text => "unsupported selector `" ++ text ++ "`"

/-- A selector with the given name, provided the name is not empty and has no white space. -/
def named (make : String → Selector) (text : String) (name : List Char) :
    Except ParseError Selector :=
  if name.isEmpty || name.any Text.isSpace then .error (.unsupported text)
  else .ok (make (.ofList name))

/-- Read `tag`, `#id` or `.class`; white space around the selector does not count. -/
def parse (s : String) : Except ParseError Selector :=
  let text := Text.trim s
  match text.toList with
  | [] => .error .empty
  | '#' :: name => named .id text name
  | '.' :: name => named .class text name
  | name => named (fun name => .tag (Text.lower name)) text name

/-- The selector as it is written. -/
def toString : Selector → String
  | .tag name => name
  | .id name => "#" ++ name
  | .class name => "." ++ name

/-- The element with this name and these attributes is selected. -/
def selects (selector : Selector) (name : String) (attrs : List Attribute) : Bool :=
  match selector with
  | .tag wanted => name == wanted
  | .id wanted => Attribute.literal? attrs "id" == some wanted
  | .class wanted =>
    match Attribute.literal? attrs "class" with
    | none => false
    | some classes => (Text.words classes.toList).contains wanted.toList

end Selector

namespace Node

mutual

/-- Take the body out of the first selected element at or below a node. -/
def extract? (selector : Selector) : Node → Option (List Node × Node)
  | .element name attrs children =>
    if selector.selects name attrs then some (children, .element name attrs [.content])
    else
      (extractList? selector children).map fun (body, children) =>
        (body, .element name attrs children)
  | _ => none

/-- Take the body out of the first selected element of a tree.  The result is the body and what
is left of the tree. -/
def extractList? (selector : Selector) : List Node → Option (List Node × List Node)
  | [] => none
  | node :: nodes =>
    match extract? selector node with
    | some (body, node) => some (body, node :: nodes)
    | none => (extractList? selector nodes).map fun (body, nodes) => (body, node :: nodes)

end

end Node

end Stencil
