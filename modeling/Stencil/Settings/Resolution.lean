import Stencil.CommandLine
import Stencil.FileTree
import Stencil.Settings

/-!
# Settings of a run

The settings of a run are those of the settings file, changed by what the command line says, with
all paths absolute.  They are checked before anything is read from the source directory.
-/

namespace Stencil

/-- Why settings cannot be used. -/
inductive SettingsFault where
  | sourceMissing (path : String)
  | outputIsSource
  | selector (error : Selector.ParseError)
  | collectionSelector (collection : String) (error : Selector.ParseError)
  | unknownCollection (name : String)
  deriving DecidableEq, Repr, Inhabited

/-- The text shown to the user. -/
def SettingsFault.message : SettingsFault → String
  | .sourceMissing path => label ++ "[build.source] `" ++ path ++ "` is not a directory"
  | .outputIsSource => label ++ "[build.output] must differ from [build.source]"
  | .selector error => label ++ error.message
  | .collectionSelector collection error =>
    label ++ "[collections." ++ collection ++ ".content] " ++ label ++ error.message
  | .unknownCollection name => label ++ "unknown collection `" ++ name ++ "`"
where
  /-- What all these texts begin with. -/
  label : String :=
    "Config validation error: "

namespace CommandLine

/-- The path of the settings file, seen from the current directory. -/
def Invocation.configPath (invocation : Invocation) : String :=
  Path.join (invocation.root.getD Settings.currentRoot) invocation.config

/-- The command compares two documents only. -/
def Command.isDiff : Command → Bool
  | .diff .. => true
  | .build .. | .json .. => false

/-- Apply the options of a command: cleaning can only be switched on. -/
def Command.adjust (command : Command) (settings : BuildSettings) : BuildSettings :=
  match command with
  | .build clean trimWhitespace =>
    { settings with
      clean := settings.clean || clean
      trimWhitespace := trimWhitespace.getD settings.trimWhitespace }
  | .json .. | .diff .. => settings

end CommandLine

namespace Settings

open CommandLine

/-- The settings with what the command line says, and with absolute paths.  The source and the
output count from the root, and the root from the current directory. -/
def resolve (settings : Settings) (invocation : Invocation) (current : String) (tree : FileTree) :
    Settings :=
  let root := tree.locate current (invocation.root.getD settings.root)
  let build := invocation.command.adjust settings.build
  { settings with
    build :=
      { build with
        root := some root
        source := tree.locate root (invocation.source.getD build.source)
        output := tree.locate root (invocation.output.getD build.output) } }

/-- The first collection with a text that is not a selector. -/
def badSelector? (settings : Settings) : Option SettingsFault :=
  settings.collections.findSome? fun (key, collection) =>
    match collection.selector with
    | .ok _ => none
    | .error error => some (.collectionSelector key error)

/-- A collection has this key. -/
def hasCollection (settings : Settings) (key : String) : Bool :=
  settings.effectiveCollections.any (·.1 == key)

/-- Check settings for a command that reads the source directory. -/
def validate (settings : Settings) (command : Command) (tree : FileTree) :
    Except SettingsFault Unit := do
  unless command.isDiff do
    unless tree.isDirectoryAt settings.build.source do
      throw (.sourceMissing settings.build.source)
    if settings.build.output = settings.build.source then throw .outputIsSource
    if let some fault := settings.badSelector? then throw fault
    if let .json _ (some key) := command then
      unless settings.hasCollection key do throw (.unknownCollection key)

end Settings

end Stencil
