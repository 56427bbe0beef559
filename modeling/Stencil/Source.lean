import Stencil.Failure

/-!
# Source directories

The files below a directory, in the order of their names, and the collections that are inferred
from them.
-/

namespace Stencil

/-- A file below a source directory. -/
structure SourceFile where
  /-- The path from the source directory. -/
  pathname : String
  path : String
  contents : ByteArray
  deriving Inhabited

namespace SourceFile

/-- The file is one of those that documents can be read from. -/
def isHtml (file : SourceFile) : Bool :=
  CollectionSettings.isHtml file.pathname

/-- Read the document in a file. -/
def document (collapse : Bool) (selector : Option Selector) (file : SourceFile) :
    Except Failure Document :=
  match String.fromUTF8? file.contents with
  | none => .error (.unread file.path)
  | some markup =>
    (Document.read collapse selector file.pathname markup).mapError (.malformed file.pathname)

end SourceFile

/-- A file of this name is not a source, wherever it is. -/
def ignoredName : String :=
  ".DS_Store"

/-- The files below a directory.  If the path leads to a file, that is the only one. -/
def FileTree.sources (tree : FileTree) (directory : String) : List SourceFile :=
  match tree.place? directory with
  | none => []
  | some place =>
    ((tree.at? place).elim [] (files [])).filterMap fun (names, contents) =>
      if (place ++ names).getLast? = some ignoredName then none
      else
        some
          { pathname := "/".intercalate names
            path := names.foldl Path.join directory
            contents }

/-- The collections with their keys, in ascending order of these. -/
abbrev Collections := List (String × Collection)

namespace Settings

/-- Infer a collection from its files. -/
def inferCollection (settings : Settings) (sources : List SourceFile) (key : String)
    (collection : CollectionSettings) : Except Failure Collection := do
  let selector ← collection.selector.mapError fun error => .invalid (.selector error)
  let documents ←
    (sources.filter fun file => collection.selects file.pathname).mapM fun file =>
      file.document settings.build.trimWhitespace selector
  (Collection.infer key documents).mapError .insufficient

/-- All collections, or only the one with the key `only`. -/
def selected (settings : Settings) (only : Option String) : List (String × CollectionSettings) :=
  settings.effectiveCollections.filter fun (key, _) => only.all (· == key)

/-- Infer all collections, or only the one with the key `only`. -/
def infer (settings : Settings) (sources : List SourceFile) (only : Option String) :
    Except Failure Collections :=
  (settings.selected only).mapM fun (key, collection) => do
    return (key, ← settings.inferCollection sources key collection)

end Settings

end Stencil
