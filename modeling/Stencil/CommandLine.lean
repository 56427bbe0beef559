import Stencil.CommandLine.Grammar

/-!
# The command line

Three commands: `build` infers all collections and writes the project, `json` prints what was
inferred, and `diff` compares two documents.  Options for paths come before the command.
-/

namespace Stencil

namespace CommandLine

/-- What to do. -/
inductive Command where
  | build (clean : Bool) (trimWhitespace : Option Bool)
  | json (pretty : Bool) (collection : Option String)
  | diff (anchor other : String) (content : Option String) (pretty : Bool)
  deriving DecidableEq, Repr, Inhabited

/-- The settings file that is read unless another one is named. -/
def defaultConfig : String :=
  "refold.toml"

/-- The arguments of a run, as a whole. -/
structure Invocation where
  root : Option String
  source : Option String
  output : Option String
  config : String
  command : Command
  deriving DecidableEq, Repr, Inhabited

/-- The switch that shows help. -/
def helpSwitch : Parameter :=
  { name := "help", short := some 'h', arity := .flag, effect := .help }

/-- The switch that indents JSON. -/
def prettySwitch : Parameter :=
  { name := "pretty", short := some 'p', arity := .flag }

/-- The arguments before the command. -/
def topGrammar : Grammar :=
  { switches :=
      [{ name := "root", short := some 'r', kind := .path },
        { name := "source", short := some 's', kind := .path },
        { name := "output", short := some 'o', kind := .path },
        { name := "config", short := some 'C', kind := .path },
        helpSwitch,
        { name := "version", short := some 'V', arity := .flag, effect := .version }]
    subcommands := ["build", "json", "diff", "help"] }

/-- The arguments of `build`. -/
def buildGrammar : Grammar :=
  { switches :=
      [{ name := "clean", arity := .flag },
        { name := "trim-whitespace", arity := .optional "true", kind := .boolean },
        helpSwitch] }

/-- The arguments of `json`. -/
def jsonGrammar : Grammar :=
  { switches := [prettySwitch, { name := "collection" }, helpSwitch] }

/-- The arguments of `diff`. -/
def diffGrammar : Grammar :=
  { switches := [{ name := "content" }, prettySwitch, helpSwitch]
    positionals := [{ name := "anchor", kind := .path }, { name := "other", kind := .path }] }

/-- The outcome of asking for help on a command, which is never a run. -/
def help : List String → ArgumentError
  | [] => .displayHelp
  | [name] => if topGrammar.isSubcommand name then .displayHelp else .invalidSubcommand
  | _ => .invalidSubcommand

/-- Read a command with its arguments. -/
def command (name : String) (args : List String) : Except ArgumentError Command := do
  if name = "build" then
    let found ← Matches.readAll buildGrammar args
    return .build (found.has "clean") ((found.value? "trim-whitespace").map (· = "true"))
  else if name = "json" then
    let found ← Matches.readAll jsonGrammar args
    return .json (found.has "pretty") (found.value? "collection")
  else if name = "diff" then
    let found ← Matches.readAll diffGrammar args
    return .diff ((found.value? "anchor").getD "") ((found.value? "other").getD "")
      (found.value? "content") (found.has "pretty")
  else .error (help args)

/-- Read the arguments of a run.  Mistakes after the command are reported before those of the last
option in front of it. -/
def parse (args : List String) : Except ArgumentError Invocation := do
  match ← Matches.read topGrammar {} args with
  | (found, none) =>
    let found ← found.settle
    .error (if found.stored.isEmpty then .helpOnMissing else .missingSubcommand)
  | (found, some (name, rest)) =>
    let command ← command name rest
    let found ← found.settle
    return {
      root := found.value? "root"
      source := found.value? "source"
      output := found.value? "output"
      config := (found.value? "config").getD defaultConfig
      command }

end CommandLine

end Stencil
