/-!
# JSON values and their written form

Objects keep their fields in order, so that the written form of a value is determined by the
value.  There are two written forms: `Json.compact` on one line, and `Json.pretty` with one item
or field a line, indented by two spaces.

How deep a document may be nested is up to its reader (`Json.Reader`).
-/

namespace Stencil

/-- A JSON value.  A number is kept as it is written. -/
inductive Json where
  | null
  | bool (value : Bool)
  | number (text : String)
  | string (value : String)
  | array (items : List Json)
  | object (fields : List (String × Json))
  deriving Repr, Inhabited

namespace Json

/-! ## Strings -/

/-- One character inside a JSON string.  Quotes, backslashes and control characters are escaped;
everything else stands for itself. -/
def stringChar (c : Char) : List Char :=
  match c with
  | '"' => ['\\', '"']
  | '\\' => ['\\', '\\']
  | '\x08' => ['\\', 'b']
  | '\x0c' => ['\\', 'f']
  | '\n' => ['\\', 'n']
  | '\r' => ['\\', 'r']
  | '\t' => ['\\', 't']
  | c =>
    if c.toNat < 0x20 then
      ['\\', 'u', '0', '0', Nat.digitChar (c.toNat / 16), Nat.digitChar (c.toNat % 16)]
    else [c]

/-- A string between double quotes. -/
def quotedString (s : String) : String :=
  .ofList ('"' :: s.toList.flatMap stringChar ++ ['"'])

/-! ## Values -/

mutual

/-- The form without any space. -/
def compact : Json → String
  | .null => "null"
  | .bool true => "true"
  | .bool false => "false"
  | .number text => text
  | .string value => quotedString value
  | .array items => "[" ++ ",".intercalate (compactItems items) ++ "]"
  | .object fields => "\x7b" ++ ",".intercalate (compactFields fields) ++ "\x7d"

/-- The compact form of every item. -/
def compactItems : List Json → List String
  | [] => []
  | item :: items => compact item :: compactItems items

/-- The compact form of every field. -/
def compactFields : List (String × Json) → List String
  | [] => []
  | (key, value) :: fields => (quotedString key ++ ":" ++ compact value) :: compactFields fields

end

/-- Lines between brackets, one level deeper than the brackets themselves. -/
def bracketed (opening closing : String) (depth : Nat) (lines : List String) : String :=
  let margin (n : Nat) : String := "".pushn ' ' (2 * n)
  if lines.isEmpty then opening ++ closing
  else
    opening ++ "\n" ++ ",\n".intercalate (lines.map (margin (depth + 1) ++ ·)) ++ "\n" ++
      margin depth ++ closing

mutual

/-- The form with one item or field a line, `depth` levels inside other values. -/
def indented (depth : Nat) : Json → String
  | .array items => bracketed "[" "]" depth (indentedItems (depth + 1) items)
  | .object fields => bracketed "\x7b" "\x7d" depth (indentedFields (depth + 1) fields)
  | json => compact json

/-- The indented form of every item. -/
def indentedItems (depth : Nat) : List Json → List String
  | [] => []
  | item :: items => indented depth item :: indentedItems depth items

/-- The indented form of every field. -/
def indentedFields (depth : Nat) : List (String × Json) → List String
  | [] => []
  | (key, value) :: fields =>
    (quotedString key ++ ": " ++ indented depth value) :: indentedFields depth fields

end

/-- The form with one item or field a line. -/
def pretty (json : Json) : String :=
  indented 0 json

/-! ## Access -/

/-- The text of a JSON string. -/
def string? : Json → Option String
  | .string value => some value
  | _ => none

/-- The items of a JSON array. -/
def items? : Json → Option (List Json)
  | .array items => some items
  | _ => none

/-- A list of strings as an array. -/
def strings (values : List String) : Json :=
  .array (values.map .string)

/-- None of the keys stands for more than one field. -/
def areSingle (keys : List String) (fields : List (String × α)) : Bool :=
  keys.all fun key => fields.countP (·.1 == key) ≤ 1

/-! ## Readers -/

mutual

/-- How deep arrays and objects are nested in a value. -/
def nesting : Json → Nat
  | .array items => itemNesting items + 1
  | .object fields => fieldNesting fields + 1
  | _ => 0

/-- The nesting of the items that are nested deepest. -/
def itemNesting : List Json → Nat
  | [] => 0
  | item :: items => max (nesting item) (itemNesting items)

/-- The nesting of the fields that are nested deepest. -/
def fieldNesting : List (String × Json) → Nat
  | [] => 0
  | (_, value) :: fields => max (nesting value) (fieldNesting fields)

end

/-- The value is nested no deeper than the limit, if there is one. -/
def IsWithin (limit : Option Nat) (json : Json) : Prop :=
  ∀ depth ∈ limit, json.nesting ≤ depth

/-- What reads documents.  It may refuse a document, whatever is to be read from it. -/
structure Reader where
  accepts : Json → Bool

namespace Reader

/-- Read a document that is accepted. -/
def read? (reader : Reader) (ofJson? : Json → Option α) (json : Json) : Option α :=
  if reader.accepts json then ofJson? json else none

/-- Every document that is nested no deeper than the limit is accepted. -/
def AcceptsUpTo (reader : Reader) (limit : Option Nat) : Prop :=
  ∀ json, json.IsWithin limit → reader.accepts json = true

/-- The reader that refuses just the documents that are nested deeper than a limit. -/
def upTo (limit : Nat) : Reader where
  accepts json := json.nesting ≤ limit

end Reader

end Json

end Stencil
