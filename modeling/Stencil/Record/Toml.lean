import Stencil.Record
import Stencil.Toml.Writer

/-!
# Records as TOML

A record is written as a table: first a line for every flag, text and empty list, then every other
list as an array of tables.  A table with a header is a section of its own, and an empty line
separates neighbouring sections.
-/

namespace Stencil

/-- The line of an entry that needs no section of its own. -/
def Record.tomlLine? (reference : String) : Value → Option String
  | .flag true => some (Toml.assignment reference "true")
  | .flag false => some (Toml.assignment reference "false")
  | .text value => some (Toml.assignment reference (Toml.writeString value))
  | .list [] => some (Toml.assignment reference "[]")
  | .list (_ :: _) => none

/-- The lines of all entries that need no section of their own. -/
def Record.tomlLines (entries : List (String × Value)) : String :=
  String.join (entries.filterMap fun (reference, value) => tomlLine? reference value)

/-- The header of a table in an array of tables. -/
def Toml.arrayHeader (path : List String) : String :=
  "[[" ++ ".".intercalate (path.map Toml.writeKey) ++ "]]\n"

mutual

/-- The sections of a value at a path. -/
def Value.tomlSections (path : List String) : Value → List String
  | .list records => Record.listSections path records
  | .flag _ | .text _ => []

/-- The sections of the records of an array of tables. -/
def Record.listSections (path : List String) : List (List (String × Value)) → List String
  | [] => []
  | record :: records =>
    (Toml.arrayHeader path ++ Record.tomlLines record) ::
      (Record.entrySections path record ++ Record.listSections path records)

/-- The sections of the entries of a table. -/
def Record.entrySections (path : List String) : List (String × Value) → List String
  | [] => []
  | (reference, value) :: entries =>
    Value.tomlSections (path ++ [reference]) value ++ Record.entrySections path entries

end

/-- The document of a list of entries, in their order. -/
def Record.tomlDocument (entries : List (String × Value)) : String :=
  let lines := tomlLines entries
  "\n".intercalate ((if lines = "" then [] else [lines]) ++ entrySections [] entries)

end Stencil
