import Stencil.Path

/-!
# File trees

The contents of a file system: files and directories, with the time of their last change.  A
directory changes when it gets an entry or loses one.  A place is told by the names on the way to it
from the root.  Paths are looked up from left to right, so that a directory has to exist before the
one above it can be reached through it.
-/

namespace Stencil

/-- The names on the way from the root of a tree. -/
abbrev Place := List String

/-- A file or a directory with everything in it.  The entries of a directory are in ascending
order of their names. -/
inductive FileTree where
  | file (contents : ByteArray) (modified : Nat)
  | directory (entries : List (String × FileTree)) (modified : Nat)
  deriving Inhabited

namespace FileTree

/-- A directory without entries. -/
def empty (modified : Nat) : FileTree :=
  .directory [] modified

/-- The entries of a directory; a file has none. -/
def entries : FileTree → List (String × FileTree)
  | .directory entries _ => entries
  | .file .. => []

/-- The time of the last change. -/
def modified : FileTree → Nat
  | .directory _ modified | .file _ modified => modified

/-- The tree is a directory. -/
def isDirectory : FileTree → Bool
  | .directory .. => true
  | .file .. => false

/-- What is at a place. -/
def at? : FileTree → Place → Option FileTree
  | tree, [] => some tree
  | tree, name :: place => (tree.entries.lookup name).bind (at? · place)

/-- A directory is at a place. -/
def hasDirectory (tree : FileTree) (place : Place) : Bool :=
  match tree.at? place with
  | some found => found.isDirectory
  | none => false

/-! ## Changes at a place -/

/-- Add an entry to a list of entries, in place of the entry of that name. -/
def setEntry (name : String) (tree : FileTree) :
    List (String × FileTree) → List (String × FileTree)
  | [] => [(name, tree)]
  | (other, known) :: entries =>
    if name = other then (name, tree) :: entries
    else if name < other then (name, tree) :: (other, known) :: entries
    else (other, known) :: setEntry name tree entries

/-- Put something at a place, with the directories on the way to it.  The directories that are new,
and the one that gets a new entry, have the time of what is put. -/
def put : FileTree → Place → FileTree → FileTree
  | _, [], new => new
  | tree, name :: place, new =>
    let known := tree.entries.lookup name
    .directory (setEntry name (put (known.getD (empty new.modified)) place new) tree.entries)
      (if known.isSome then tree.modified else new.modified)

/-- Take away at a time what is at a place.  The root itself is only emptied. -/
def remove (now : Nat) : FileTree → Place → FileTree
  | _, [] => empty now
  | tree, [name] => .directory (tree.entries.filter (·.1 != name)) now
  | tree, name :: place =>
    match tree.entries.lookup name with
    | none => tree
    | some known =>
      .directory (setEntry name (remove now known place) tree.entries) tree.modified

/-! ## Files -/

mutual

/-- The files of a tree with their places: the entries of each directory in turn, those of a
directory before the next entry. -/
def files (place : Place) : FileTree → List (Place × ByteArray)
  | .file contents _ => [(place, contents)]
  | .directory entries _ => filesOf place entries

/-- The files of a list of entries. -/
def filesOf (place : Place) : List (String × FileTree) → List (Place × ByteArray)
  | [] => []
  | (name, tree) :: entries => files (place ++ [name]) tree ++ filesOf place entries

end

/-! ## Paths -/

/-- Follow the segments of a path from a place. -/
def follow (tree : FileTree) : Place → List String → Option Place
  | place, [] => some place
  | place, segment :: segments =>
    match tree.at? place with
    | some (.directory entries _) =>
      if segment = Path.here then follow tree place segments
      else if segment = Path.above then follow tree place.dropLast segments
      else if (entries.lookup segment).isSome then follow tree (place ++ [segment]) segments
      else none
    | _ => none

/-- The place that an absolute path leads to. -/
def place? (tree : FileTree) (path : String) : Option Place :=
  tree.follow [] (Path.segments path)

/-- What an absolute path leads to. -/
def find? (tree : FileTree) (path : String) : Option FileTree :=
  (tree.place? path).bind tree.at?

/-- An absolute path leads to a directory. -/
def isDirectoryAt (tree : FileTree) (path : String) : Bool :=
  match tree.find? path with
  | some found => found.isDirectory
  | none => false

/-- The contents of the file that an absolute path leads to. -/
def contents? (tree : FileTree) (path : String) : Option ByteArray :=
  match tree.find? path with
  | some (.file contents _) => some contents
  | _ => none

/-- The text of the file that an absolute path leads to, if it is UTF-8. -/
def text? (tree : FileTree) (path : String) : Option String :=
  (tree.contents? path).bind String.fromUTF8?

/-- The absolute path of `path`, seen from the directory `base`.  What exists is told by its place,
anything else by the joined paths as they are. -/
def locate (tree : FileTree) (base path : String) : String :=
  let path := Path.join base path
  match tree.place? path with
  | some place => Path.ofNames place
  | none => path

end FileTree

end Stencil
