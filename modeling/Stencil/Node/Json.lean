import Stencil.Json
import Stencil.Node

/-!
# Nodes as JSON

A node is written as an object whose first field, `type`, names its kind.  Reading is more
permissive: the fields may come in any order, unknown fields are skipped, missing attribute and
child lists are empty, and the tag and the fields may also be given by position, as an array.
Below the outermost node a tag may also be the number of the kind.  But neither the tag nor a field
of the kind may be given twice.
-/

namespace Stencil

/-! ## Writing -/

/-- The written form of an attribute. -/
def Attribute.toJson : Attribute → Json
  | ⟨name, .literal value⟩ =>
    .object [("type", .string "attribute"), ("name", .string name), ("value", .string value)]
  | ⟨name, .var reference⟩ =>
    .object
      [("type", .string "variable-attribute"), ("name", .string name),
        ("reference", .string reference)]
  | ⟨name, .conditional reference⟩ =>
    .object
      [("type", .string "conditional-attribute"), ("name", .string name),
        ("reference", .string reference)]

namespace Node

/-- The first field of a written node. -/
def tagField (kind : Kind) : String × Json :=
  ("type", .string kind.label)

mutual

/-- The written form of a node. -/
def toJson : Node → Json
  | .doctype value => .object [tagField .doctype, ("value", .string value)]
  | .element name attrs children =>
    .object
      [tagField .element, ("name", .string name), ("attrs", .array (attrs.map Attribute.toJson)),
        ("children", .array (listToJson children))]
  | .text value => .object [tagField .text, ("value", .string value)]
  | .comment value => .object [tagField .comment, ("value", .string value)]
  | .var reference => .object [tagField .var, ("reference", .string reference)]
  | .conditional reference child =>
    .object [tagField .conditional, ("reference", .string reference), ("child", toJson child)]
  | .content => .object [tagField .content]
  | .markdown reference => .object [tagField .markdown, ("reference", .string reference)]
  | .loop reference template =>
    .object [tagField .loop, ("reference", .string reference), ("template", toJson template)]

/-- The written form of every node of a list. -/
def listToJson : List Node → List Json
  | [] => []
  | node :: nodes => toJson node :: listToJson nodes

end

/-- The written form of a tree. -/
def treeToJson (tree : List Node) : Json :=
  .array (listToJson tree)

end Node

/-! ## Tags -/

namespace Json

/-- The tag of a value that may be tagged. -/
def tag? : Json → Option Json
  | .object fields => fields.lookup "type"
  | .array (tag :: _) => some tag
  | _ => none

/-- The entry of `names` that a tag stands for, by its name or by its number. -/
def choice? (names : List (String × α)) : Json → Option α
  | .string name => names.lookup name
  | .number text => do (← names[← text.toNat?]?).2
  | _ => none

/-- Read a value that is not part of another.  Its tag is a name. -/
def outermost? (read? : Json → Option α) (json : Json) : Option α :=
  match json.tag? with
  | some (.string _) => read? json
  | _ => none

end Json

/-! ## Reading -/

namespace Attribute

/-- What an attribute can be bound to, by tag. -/
def bindings : List (String × String × (String → AttributeValue)) :=
  [("attribute", "value", .literal), ("variable-attribute", "reference", .var),
    ("conditional-attribute", "reference", .conditional)]

/-- The fields of an attribute beside its tag. -/
def fieldNames (binding : String × (String → AttributeValue)) : List String :=
  ["name", binding.1]

/-- Read an attribute that may be part of a node. -/
def ofPart? : Json → Option Attribute
  | .object fields => do
    let binding ← (← fields.lookup "type").choice? bindings
    if Json.areSingle ("type" :: fieldNames binding) fields then
      return ⟨← (← fields.lookup "name").string?,
        binding.2 (← (← fields.lookup binding.1).string?)⟩
    else none
  | .array [tag, .string name, .string bound] => do
    let binding ← tag.choice? bindings
    return ⟨name, binding.2 bound⟩
  | _ => none

/-- Read an attribute. -/
def ofJson? : Json → Option Attribute :=
  Json.outermost? ofPart?

end Attribute

namespace Node

/-- The kinds by the tag that names them, in the order of their numbers. -/
def kinds : List (String × Kind) :=
  [Kind.doctype, .element, .text, .comment, .var, .conditional, .content, .markdown, .loop].map
    fun kind => (kind.label, kind)

/-- A JSON value together with the node and the list of nodes that it can be read as. -/
structure Reading where
  json : Json
  node? : Option Node := none
  nodes? : Option (List Node) := none
  deriving Inhabited

/-- Read a node of the given kind from its fields. -/
def ofFields? (kind : Kind) (field : String → Option Reading) : Option Node := do
  let string (name : String) : Option String := do (← field name).json.string?
  let node (name : String) : Option Node := do (← field name).node?
  match kind with
  | .doctype => return .doctype (← string "value")
  | .element =>
    let attrs ←
      match field "attrs" with
      | none => some []
      | some reading => do (← reading.json.items?).mapM Attribute.ofPart?
    let children ←
      match field "children" with
      | none => some []
      | some reading => reading.nodes?
    return .element (← string "name") attrs children
  | .text => return .text (← string "value")
  | .comment => return .comment (← string "value")
  | .var => return .var (← string "reference")
  | .conditional => return .conditional (← string "reference") (← node "child")
  | .content => return .content
  | .markdown => return .markdown (← string "reference")
  | .loop => return .loop (← string "reference") (← node "template")

/-- The fields of a node beside its tag, in the order in which they are given by position. -/
def Kind.fieldNames : Kind → List String
  | .doctype | .text | .comment => ["value"]
  | .element => ["name", "attrs", "children"]
  | .var | .markdown => ["reference"]
  | .conditional => ["reference", "child"]
  | .content => []
  | .loop => ["reference", "template"]

/-- The node that the fields of an object make up. -/
def ofNamed? (fields : List (String × Reading)) : Option Node := do
  let kind ← (← fields.lookup "type").json.choice? kinds
  if Json.areSingle ("type" :: kind.fieldNames) fields then
    ofFields? kind fun name => fields.lookup name
  else none

/-- The node that the items of an array make up: its tag, then its fields. -/
def ofPositional? : List Reading → Option Node
  | [] => none
  | tag :: fields => do
    let kind ← tag.json.choice? kinds
    if fields.length ≤ kind.fieldNames.length then
      ofFields? kind fun name => fields[kind.fieldNames.idxOf name]?
    else none

mutual

/-- Everything that a JSON value can be read as. -/
def readJson : Json → Reading
  | .object fields => { json := .object fields, node? := ofNamed? (readFields fields) }
  | .array items =>
    let readings := readItems items
    { json := .array items
      node? := ofPositional? readings
      nodes? := readings.mapM Reading.node? }
  | json => { json }

/-- The readings of the items of an array. -/
def readItems : List Json → List Reading
  | [] => []
  | item :: items => readJson item :: readItems items

/-- The readings of the fields of an object. -/
def readFields : List (String × Json) → List (String × Reading)
  | [] => []
  | (key, value) :: fields => (key, readJson value) :: readFields fields

end

/-- Read a node. -/
def ofJson? : Json → Option Node :=
  Json.outermost? fun json => (readJson json).node?

/-- Read a list of nodes. -/
def listOfJson? (json : Json) : Option (List Node) := do
  (← json.items?).mapM ofJson?

end Node

end Stencil
