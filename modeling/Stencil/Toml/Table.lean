import Stencil.Toml

/-!
# Building TOML tables

A document defines tables by headers and by dotted keys, in any order but each only once.  While
it is read, a table remembers how it came about: an implicit table was only passed through on the
way to another one, and a dotted one was made by a dotted key.  A definition that clashes with an
earlier one has no result.
-/

namespace Stencil.Toml

/-- An entry of a table under construction: a value, a table, or an array of tables. -/
inductive Entry where
  | value (value : Toml)
  | table (implicit dotted : Bool) (entries : List (String × Entry))
  | tables (items : List (List (String × Entry)))
  deriving Inhabited

/-- A table under construction. -/
structure Table where
  implicit : Bool := false
  dotted : Bool := false
  entries : List (String × Entry) := []
  deriving Inhabited

mutual

/-- The value of an entry. -/
def Entry.toToml : Entry → Toml
  | .value plain => plain
  | .table _ _ entries => .table (Entry.entriesToToml entries)
  | .tables items => .array (Entry.itemsToToml items)

/-- The values of the entries of a table. -/
def Entry.entriesToToml : List (String × Entry) → List (String × Toml)
  | [] => []
  | (key, entry) :: entries => (key, entry.toToml) :: Entry.entriesToToml entries

/-- The values of the tables of an array. -/
def Entry.itemsToToml : List (List (String × Entry)) → List Toml
  | [] => []
  | entries :: items => .table (Entry.entriesToToml entries) :: Entry.itemsToToml items

end

namespace Table

/-- The table as an entry of another one. -/
def toEntry (table : Table) : Entry :=
  .table table.implicit table.dotted table.entries

/-- The value of the table. -/
def toToml (table : Table) : Toml :=
  .table (Entry.entriesToToml table.entries)

/-- The entry under a key. -/
def find? (table : Table) (key : String) : Option Entry :=
  table.entries.lookup key

/-- Add an entry at the end. -/
def push (table : Table) (key : String) (entry : Entry) : Table :=
  { table with entries := table.entries ++ [(key, entry)] }

/-- Put an entry in the place of the one under its key. -/
def replace (table : Table) (key : String) (entry : Entry) : Table :=
  { table with
    entries := table.entries.map fun (name, old) => (name, if name = key then entry else old) }

/-- Take out the entry under a key. -/
def erase (table : Table) (key : String) : Table :=
  { table with entries := table.entries.filter (·.1 != key) }

/-- Change the table at the end of a path.  Tables that are missing on the way are made.  A path
of a dotted key leads through implicit tables only; a path of a header leads into the last table
of an array of tables. -/
def descend (dotted : Bool) (change : Table → Option (Table × α)) :
    List String → Table → Option (Table × α)
  | [], here => change here
  | key :: path, here =>
    match here.find? key with
    | none => do
      let (child, a) ← descend dotted change path { implicit := true, dotted }
      return (here.push key child.toEntry, a)
    | some (.value _) => none
    | some (.table implicit wasDotted entries) =>
      if dotted && !implicit then none
      else do
        let (child, a) ← descend dotted change path ⟨implicit, wasDotted, entries⟩
        return (here.replace key child.toEntry, a)
    | some (.tables items) => do
      let last ← items.getLast?
      let (child, a) ← descend dotted change path { entries := last }
      return (here.replace key (.tables (items.dropLast ++ [child.entries])), a)

/-- Add the value of a key, given as the parts before its last one and the last one. -/
def addPair (table : Table) (path : List String) (key : String) (value : Toml) : Option Table :=
  (descend true
    (fun parent =>
      if parent.dotted == path.isEmpty || (parent.find? key).isSome then none
      else some (parent.push key (.value value), ()))
    path table).map Prod.fst

end Table

/-- A statement of a document. -/
inductive Statement where
  | pair (path : List String) (key : String) (value : Toml)
  | table (path : List String) (key : String)
  | tables (path : List String) (key : String)

/-- Where the pairs of a document go: to the top, or to the table of the last header. -/
inductive Target where
  | top
  | table (path : List String) (key : String)
  | tables (path : List String) (key : String)

/-- A document under construction: the tables before the last header, and the table after it. -/
structure Progress where
  root : Table := {}
  current : Table := {}
  target : Target := .top

namespace Progress

/-- Put the current table into its place. -/
def close (progress : Progress) : Option Table :=
  match progress.target with
  | .top => some progress.current
  | .table path key =>
    (Table.descend false
      (fun parent =>
        match parent.find? key with
        | none => some (parent.push key progress.current.toEntry, ())
        | some (.table true _ _) => some (parent.replace key progress.current.toEntry, ())
        | some _ => none)
      path progress.root).map Prod.fst
  | .tables path key =>
    (Table.descend false
      (fun parent =>
        match parent.find? key with
        | some (.tables items) =>
          some (parent.replace key (.tables (items ++ [progress.current.entries])), ())
        | _ => none)
      path progress.root).map Prod.fst

/-- Begin a table.  An implicit table of the name becomes the new one. -/
def openTable (root : Table) (path : List String) (key : String) : Option Progress := do
  let (root, entries) ←
    Table.descend false
      (fun parent =>
        match parent.find? key with
        | none => some (parent, [])
        | some (.table true false entries) => some (parent.erase key, entries)
        | some _ => none)
      path root
  return { root, current := { entries }, target := .table path key }

/-- Begin a table at the end of an array of tables. -/
def openTables (root : Table) (path : List String) (key : String) : Option Progress := do
  let (root, _) ←
    Table.descend false
      (fun parent =>
        match parent.find? key with
        | none => some (parent.push key (.tables []), ())
        | some (.tables _) => some (parent, ())
        | some _ => none)
      path root
  return { root, current := {}, target := .tables path key }

/-- Take in a statement. -/
def add (progress : Progress) : Statement → Option Progress
  | .pair path key value => do
    return { progress with current := ← progress.current.addPair path key value }
  | .table path key => do openTable (← progress.close) path key
  | .tables path key => do openTables (← progress.close) path key

/-- The document of a list of statements. -/
def document (statements : List Statement) : Option Toml := do
  return (← (← statements.foldlM add {}).close).toToml

end Progress

end Stencil.Toml
