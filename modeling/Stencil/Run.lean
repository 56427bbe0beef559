import Stencil.Hugo.Project
import Stencil.Terminal.Progress
import Stencil.Warning.Report

/-!
# Runs

A run reads the file system, and only when everything has been read and inferred does it make its
changes.  So its first part is a plan: a function of the file tree, which says what to print, what
to change and what to tell the user in between.
-/

namespace Stencil

/-- A step of a run. -/
inductive Plan.Step where
  /-- Tell something to the user. -/
  | tell (signal : Signal)
  /-- Change something. -/
  | make (change : Change)
  deriving DecidableEq, Repr, Inhabited

/-- The change of a step. -/
def Plan.Step.change? : Step → Option Change
  | .tell _ => none
  | .make change => some change

/-- What a run does in the end. -/
structure Plan where
  /-- The text to print. -/
  output : String := ""
  steps : List Plan.Step := []
  deriving Repr, Inhabited

namespace Plan

/-- The changes of a plan. -/
def changes (plan : Plan) : List Change :=
  plan.steps.filterMap Step.change?

/-- Carry out the changes of a plan. -/
def perform (now : Nat) (plan : Plan) : EStateM Failure FileTree Unit :=
  plan.changes.forM (Change.perform now)

/-- Make a plan for the file tree as it is and carry it out.  A failure to plan changes nothing. -/
def follow (now : Nat) (plan : FileTree → Except Failure Plan) :
    EStateM Failure FileTree String := do
  match plan (← get) with
  | .error failure => throw failure
  | .ok plan => do
    plan.perform now
    return plan.output

/-- Print a JSON value on one line, or indented. -/
def printing (json : Json) (pretty : Bool) : Plan :=
  { output := (if pretty then json.pretty else json.compact) ++ "\n" }

end Plan

/-- The written form of a collection. -/
def Collection.toJson (collection : Collection) : Json :=
  .object
    [("pages", .array (collection.pages.map Page.toJson)),
      ("layout", collection.layout.toJson),
      ("warnings", .array (collection.warnings.map Warning.toJson))]

/-- The written form of a comparison. -/
def Difference.toJson (difference : Difference) : Json :=
  .object
    [("layout", difference.layout.toJson),
      ("pages", .array ([difference.anchor, difference.other].map Page.toJson)),
      ("warnings", .array (difference.warnings.map Warning.toJson))]

namespace Settings

open CommandLine

/-- What is told while the documents of a collection are read: a bar takes a step for each. -/
def reading (settings : Settings) (sources : List SourceFile) (key : String)
    (collection : CollectionSettings) : List Signal :=
  match collection.selector with
  | .error _ => []
  | .ok selector =>
    let files := sources.filter fun file => collection.selects file.pathname
    let read := files.takeWhile fun file =>
      (file.document settings.build.trimWhitespace selector).isOk
    [.message "parse" (key ++ ": " ++ toString files.length ++ " html files"),
      .start [(key, files.length)]] ++
      List.replicate read.length (.step key) ++ [.finish]

/-- What is told while collections are inferred, up to the first that cannot be. -/
def inferring (settings : Settings) (sources : List SourceFile) :
    List (String × CollectionSettings) → List Signal
  | [] => []
  | (key, collection) :: entries =>
    settings.reading sources key collection ++
      match settings.inferCollection sources key collection with
      | .error _ => []
      | .ok collection =>
        .message "layout"
          (key ++ ": " ++ toString collection.pages.length ++ " pages, " ++
            toString collection.layout.references.length ++ " placeholders") ::
          settings.inferring sources entries

/-- Report the warnings of collections. -/
def warnings (collections : Collections) : List Plan.Step :=
  collections.flatMap fun (key, collection) =>
    (Warning.report key collection.warnings).map fun line => .tell (.message "warn" line)

/-- The steps that write a project.  A bar takes a step for each file that is copied. -/
def steps (settings : Settings) (collections : Collections) (sources : List SourceFile) :
    List Plan.Step :=
  let files := Hugo.project settings.site collections
  let copies := settings.copies sources
  warnings collections ++ settings.preparation.map .make ++
    [.tell (.message "export" ("writing " ++ toString files.length ++ " files"))] ++
    (Hugo.writes settings.build.output files).map .make ++
    [.tell (.start [("static", copies.length)])] ++
    copies.flatMap (fun change => [.make change, .tell (.step "static")]) ++
    [.tell .finish, .tell (.message "build" "done")]

/-- Plan to write a project. -/
def planBuild (settings : Settings) (tree : FileTree) : Except Failure Plan := do
  let sources := tree.sources settings.build.source
  return { steps := settings.steps (← settings.infer sources none) sources }

/-- Infer all collections and write the project. -/
def buildSite (settings : Settings) (now : Nat) : EStateM Failure FileTree String :=
  Plan.follow now settings.planBuild

/-- Plan to print what is inferred. -/
def planJson (settings : Settings) (only : Option String) (pretty : Bool) (tree : FileTree) :
    Except Failure Plan := do
  let collections ← settings.infer (tree.sources settings.build.source) only
  return .printing
    (.object (collections.map fun (key, collection) => (key, collection.toJson))) pretty

/-- Read a document at a path that counts from the directory `current`. -/
def readDocument (settings : Settings) (selector : Option Selector) (current : String)
    (tree : FileTree) (path : String) : Except Failure Document :=
  match tree.text? (Path.join current path) with
  | none => .error (.unread path)
  | some markup =>
    (Document.read settings.build.trimWhitespace selector path markup).mapError (.malformed path)

/-- Plan to print how two documents differ. -/
def planDiff (settings : Settings) (anchor other : String) (content : Option String)
    (pretty : Bool) (current : String) (tree : FileTree) : Except Failure Plan := do
  let selector ← content.mapM fun text => (Selector.parse text).mapError .selector
  let anchor ← settings.readDocument selector current tree anchor
  let other ← settings.readDocument selector current tree other
  return .printing (anchor.difference other).toJson pretty

end Settings

namespace CommandLine.Invocation

/-- The settings of the settings file, or the defaults if there is none. -/
def fileSettings (invocation : Invocation) (current : String) (tree : FileTree) :
    Except Failure Settings :=
  let path := Path.join current invocation.configPath
  if (tree.find? path).isSome then
    match tree.text? path with
    | none => .error (.settingsUnread invocation.configPath)
    | some text => (Settings.parse text).mapError .settings
  else .ok {}

/-- The settings of a run, checked. -/
def settings (invocation : Invocation) (current : String) (tree : FileTree) :
    Except Failure Settings := do
  let settings := (← invocation.fileSettings current tree).resolve invocation current tree
  (settings.validate invocation.command tree).mapError .invalid
  return settings

/-- Plan a run that is started in the directory `current`. -/
def plan (invocation : Invocation) (current : String) (tree : FileTree) : Except Failure Plan := do
  let settings ← invocation.settings current tree
  match invocation.command with
  | .build .. => settings.planBuild tree
  | .json pretty collection => settings.planJson collection pretty tree
  | .diff anchor other content pretty =>
    settings.planDiff anchor other content pretty current tree

/-- What is told before a run that is started in the directory `current` is planned, or cannot
be. -/
def opening (invocation : Invocation) (current : String) (tree : FileTree) : List Signal :=
  match invocation.settings current tree with
  | .error _ => []
  | .ok settings =>
    let sources := tree.sources settings.build.source
    match invocation.command with
    | .build .. =>
      .message "collect" ("found " ++ toString sources.length ++ " files") ::
        settings.inferring sources (settings.selected none)
    | .json _ only => settings.inferring sources (settings.selected only)
    | .diff .. => []

/-- Run a command at a time, and return what it prints. -/
def run (invocation : Invocation) (current : String) (now : Nat) :
    EStateM Failure FileTree String :=
  Plan.follow now (invocation.plan current)

end CommandLine.Invocation

end Stencil
