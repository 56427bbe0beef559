/-!
# Paths

A path is a text whose segments are set apart by slashes.  A path that begins with a slash is
absolute; any other path counts from some directory.  Texts of paths are kept as they were given,
because they are shown to the user.
-/

namespace Stencil.Path

/-- The path counts from the root of the file system. -/
def isAbsolute (path : String) : Bool :=
  path.toList.head? == some '/'

/-- The path ends in a slash. -/
def endsInSlash (path : String) : Bool :=
  path.toList.getLast? == some '/'

/-- The path that leads to `path` from the directory `base`. -/
def join (base path : String) : String :=
  if isAbsolute path then path
  else if base = "" || endsInSlash base then base ++ path
  else base ++ "/" ++ path

/-- The parts of a text between slashes. -/
def pieces : List Char → List (List Char)
  | [] => [[]]
  | c :: cs =>
    if c = '/' then [] :: pieces cs
    else
      match pieces cs with
      | [] => [[c]]
      | piece :: rest => (c :: piece) :: rest

/-- The segment that stands for the directory it is in. -/
def here : String :=
  "."

/-- The segment that stands for the directory above. -/
def above : String :=
  ".."

/-- The segments of a path.  A slash at the end asks for a directory, as the segment `.` does. -/
def segments (path : String) : List String :=
  let names := ((pieces path.toList).filter (!·.isEmpty)).map String.ofList
  if endsInSlash path && !names.isEmpty then names ++ [here] else names

/-- The absolute path of a list of names. -/
def ofNames (names : List String) : String :=
  "/" ++ "/".intercalate names

end Stencil.Path
