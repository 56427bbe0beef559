import Stencil.FileTree

/-!
# Actions on file trees

What a program can do to a file system at a time: make directories, write and copy files, and remove
directories.  An action that fails can leave a part of its work behind.
-/

namespace Stencil

/-- Why an action fails. -/
inductive SystemError where
  | notFound
  | alreadyExists
  | notDirectory
  | isDirectory
  | invalidName
  deriving DecidableEq, Repr, Inhabited

/-- The words for an error. -/
def SystemError.message : SystemError → String
  | .notFound => "No such file or directory (os error 2)"
  | .alreadyExists => "File exists (os error 17)"
  | .notDirectory => "Not a directory (os error 20)"
  | .isDirectory => "Is a directory (os error 21)"
  | .invalidName => "Invalid argument (os error 22)"

namespace FileTree

/-- A change of a file tree that can fail. -/
abbrev Action (α : Type) := EStateM SystemError FileTree α

/-- A directory can have an entry of this name. -/
def isStorable (name : String) : Bool :=
  !name.toList.contains '\x00' && name.utf8ByteSize ≤ 255

/-! ## Directories -/

/-- Follow segments from a place, and make the directories that are missing on the way. -/
def enter (now : Nat) : Place → List String → Action Place
  | place, [] => pure place
  | place, segment :: segments => do
    if segment = Path.here then enter now place segments
    else if segment = Path.above then enter now place.dropLast segments
    else
      let place := place ++ [segment]
      match (← get).at? place with
      | some (.directory ..) => enter now place segments
      | some (.file ..) =>
        throw (if segments.isEmpty then .alreadyExists else .notDirectory)
      | none => do
        if isStorable segment then
          modify (·.put place (empty now))
          enter now place segments
        else throw .invalidName

/-- Make a directory and all directories on the way to it.  A path that ends in the segment `.`
makes only those on the way: it names a directory that must be there. -/
def makeDirectories (now : Nat) (path : String) : Action Unit := do
  let segments := Path.segments path
  if segments.getLast? = some Path.here && !Path.endsInSlash path then
    unless (← get).isDirectoryAt path do
      let _ ← enter now [] (segments.filter (· != Path.here)).dropLast
      throw .notFound
  else
    let _ ← enter now [] segments

/-- Make the directories on the way to a path. -/
def makeParents (now : Nat) (path : String) : Action Unit := do
  let _ ← enter now [] (Path.segments path).dropLast

/-- Remove a directory with everything in it. -/
def removeDirectory (now : Nat) (path : String) : Action Unit := do
  match (← get).place? path with
  | none => throw .notFound
  | some place =>
    if (← get).hasDirectory place then modify (·.remove now place) else throw .notDirectory

/-! ## Files -/

/-- Write a file at a time, in place of what it held before. -/
def write (now : Nat) (path : String) (contents : ByteArray) : Action Unit := do
  let segments := Path.segments path
  match (← get).follow [] segments.dropLast, segments.getLast? with
  | some parent, some name =>
    if (← get).hasDirectory parent then
      if name = Path.here || name = Path.above then throw .isDirectory
      else if (← get).hasDirectory (parent ++ [name]) then throw .isDirectory
      else if isStorable name then modify (·.put (parent ++ [name]) (.file contents now))
      else throw .invalidName
    else throw .notDirectory
  | _, _ => throw .notFound

/-- The time at which what is at a path was last changed. -/
def modified? (tree : FileTree) (path : String) : Option Nat :=
  (tree.find? path).map modified

/-- The target of a copy has not changed before the source. -/
def isUpToDate (source target : Option Nat) : Bool :=
  match source, target with
  | some source, some target => source ≤ target
  | _, _ => false

/-- Copy a file, with the directories on the way to the target.  Unless the copy is to be made
anyway, a target that is up to date is left alone. -/
def copy (now : Nat) (source target : String) (always : Bool) : Action Unit := do
  let tree ← get
  unless !always && isUpToDate (tree.modified? source) (tree.modified? target) do
    makeParents now target
    match (← get).find? source with
    | some (.file contents _) => write now target contents
    | some (.directory ..) => throw .isDirectory
    | none => throw .notFound

end FileTree

end Stencil
