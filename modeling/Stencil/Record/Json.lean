import Stencil.Json
import Stencil.Record

/-!
# Records as JSON

A flag is written as a boolean, a text as a string and a list as an array of objects.  Reading
accepts exactly these three shapes, nested to any depth.
-/

namespace Stencil

mutual

/-- The written form of a value. -/
def Value.toJson : Value → Json
  | .flag value => .bool value
  | .text value => .string value
  | .list records => .array (Record.listToJson records)

/-- The written form of the records of a loop. -/
def Record.listToJson : List (List (String × Value)) → List Json
  | [] => []
  | record :: records => .object (Record.fieldsToJson record) :: Record.listToJson records

/-- The fields of the written form of a record. -/
def Record.fieldsToJson : List (String × Value) → List (String × Json)
  | [] => []
  | (reference, value) :: rest => (reference, value.toJson) :: Record.fieldsToJson rest

end

/-- The written form of a record. -/
def Record.toJson (record : Record) : Json :=
  .object (Record.fieldsToJson record)

mutual

/-- Read a value. -/
def Value.ofJson? : Json → Option Value
  | .bool value => some (.flag value)
  | .string value => some (.text value)
  | .array items => (Record.listOfJson? items).map .list
  | _ => none

/-- Read the records of a loop. -/
def Record.listOfJson? : List Json → Option (List Record)
  | [] => some []
  | .object fields :: items => do
    return (← Record.ofFields? fields) :: (← Record.listOfJson? items)
  | _ :: _ => none

/-- Read the fields of a record; the last field of a name stands. -/
def Record.ofFields? : List (String × Json) → Option Record
  | [] => some []
  | (reference, json) :: fields => do
    let value ← Value.ofJson? json
    let rest ← Record.ofFields? fields
    return rest.insertNew reference value

end

/-- Read a record. -/
def Record.ofJson? : Json → Option Record
  | .object fields => Record.ofFields? fields
  | _ => none

end Stencil
