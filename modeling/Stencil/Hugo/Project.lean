import Stencil.Hugo
import Stencil.Source

/-!
# Writing a Hugo project

The generated files of a project, and the changes that put it into its output directory: the
directory is made, and emptied first if that is asked for, the generated files are written and all
other files of the source are copied.
-/

namespace Stencil

namespace Hugo

/-- The generated files: the settings of the site, and for each collection its template and its
pages. -/
def project (site : SiteSettings) (collections : Collections) : List File :=
  configFile site.baseUrl site.title ::
    collections.flatMap fun (key, collection) =>
      layoutFile collection.layout key :: collection.pages.map (pageFile · key)

end Hugo

/-- A step in writing a project. -/
inductive Change where
  /-- Remove a directory, if it is there. -/
  | clear (directory : String)
  | create (directory : String)
  | write (path contents : String)
  /-- Copy a file that is not up to date, or any file with `always`. -/
  | copy (source target : String) (always : Bool)
  deriving DecidableEq, Repr, Inhabited

namespace Change

/-- Make a change to a file tree at a time. -/
def perform (now : Nat) : Change → EStateM Failure FileTree Unit
  | .clear directory => do
    if ((← get).find? directory).isSome then
      (FileTree.removeDirectory now directory).adaptExcept fun _ => .unclearable directory
  | .create directory =>
    (FileTree.makeDirectories now directory).adaptExcept fun _ => .uncreatable directory
  | .write path contents => do
    (FileTree.makeParents now path).adaptExcept .system
    (FileTree.write now path contents.toUTF8).adaptExcept fun _ => .unwritable path
  | .copy source target always =>
    (FileTree.copy now source target always).adaptExcept fun _ => .uncopied

end Change

/-- The changes that write files into a directory. -/
def Hugo.writes (output : String) (files : List File) : List Change :=
  files.map fun file => .write (Path.join output file.pathname) file.contents

namespace Settings

/-- The changes that make the output directory, and empty it first if that is asked for. -/
def preparation (settings : Settings) : List Change :=
  (if settings.build.clean then [.clear settings.build.output] else []) ++
    [.create settings.build.output]

/-- The changes that copy the other files of the source. -/
def copies (settings : Settings) (sources : List SourceFile) : List Change :=
  let target := Path.join settings.build.output Hugo.staticDirectory
  (sources.filter (!·.isHtml)).map fun file =>
    .copy file.path (Path.join target file.pathname) settings.build.clean

/-- The changes that write a project. -/
def changes (settings : Settings) (collections : Collections) (sources : List SourceFile) :
    List Change :=
  settings.preparation ++
    Hugo.writes settings.build.output (Hugo.project settings.site collections) ++
    settings.copies sources

end Settings

end Stencil
