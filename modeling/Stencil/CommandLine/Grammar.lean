/-!
# Reading a list of arguments

A command has switches, positional arguments and, at the top level, subcommands.  The arguments are
read from left to right.  The values of a switch are collected first and accepted when the next
switch, positional argument or the end comes; an argument that cannot be placed at all is reported
before a value collected earlier is looked at.
-/

namespace Stencil.CommandLine

/-- Why arguments are not accepted. -/
inductive ArgumentError where
  | helpOnMissing
  | missingSubcommand
  | invalidSubcommand
  | unknownArgument
  | argumentConflict
  | missingRequired
  | invalidValue
  | tooManyValues
  | displayHelp
  | displayVersion
  deriving DecidableEq, Repr, Inhabited

/-- The name of an error. -/
def ArgumentError.label : ArgumentError → String
  | .helpOnMissing => "DisplayHelpOnMissingArgumentOrSubcommand"
  | .missingSubcommand => "MissingSubcommand"
  | .invalidSubcommand => "InvalidSubcommand"
  | .unknownArgument => "UnknownArgument"
  | .argumentConflict => "ArgumentConflict"
  | .missingRequired => "MissingRequiredArgument"
  | .invalidValue => "InvalidValue"
  | .tooManyValues => "TooManyValues"
  | .displayHelp => "DisplayHelp"
  | .displayVersion => "DisplayVersion"

/-- How many values a switch takes: none, exactly one, or one that may be left out. -/
inductive Arity where
  | flag
  | value
  | optional (missing : String)
  deriving DecidableEq, Repr, Inhabited

/-- What a value has to be. -/
inductive ValueKind where
  | path
  | text
  | boolean
  deriving DecidableEq, Repr, Inhabited

/-- The value is one of its kind: paths are not empty, booleans are written out. -/
def ValueKind.accepts : ValueKind → String → Bool
  | .path, value => value != ""
  | .text, _ => true
  | .boolean, value => value == "true" || value == "false"

/-- What is done once a switch is accepted. -/
inductive Effect where
  | store
  | help
  | version
  deriving DecidableEq, Repr, Inhabited

/-- A switch or a positional argument. -/
structure Parameter where
  name : String
  short : Option Char := none
  arity : Arity := .value
  kind : ValueKind := .text
  effect : Effect := .store
  deriving DecidableEq, Repr, Inhabited

/-- The arguments that a command takes. -/
structure Grammar where
  switches : List Parameter
  positionals : List Parameter := []
  subcommands : List String := []
  deriving Repr, Inhabited

namespace Grammar

/-- The switch with a long name. -/
def long? (grammar : Grammar) (name : String) : Option Parameter :=
  grammar.switches.find? (·.name = name)

/-- The switch with a short name. -/
def short? (grammar : Grammar) (c : Char) : Option Parameter :=
  grammar.switches.find? (·.short = some c)

/-- The argument names a subcommand. -/
def isSubcommand (grammar : Grammar) (arg : String) : Bool :=
  grammar.subcommands.contains arg

end Grammar

/-- A parameter whose values are being collected; `more` tells whether it can take another. -/
structure Pending where
  parameter : Parameter
  values : List String := []
  more : Bool
  deriving Repr, Inhabited

/-- What has been read of the arguments. -/
structure Matches where
  stored : List (String × String) := []
  pending : Option Pending := none
  /-- The number of positional arguments met. -/
  position : Nat := 0
  /-- Only positional arguments follow. -/
  trailing : Bool := false
  deriving Repr, Inhabited

namespace Matches

/-- The value of a parameter. -/
def value? (found : Matches) (name : String) : Option String :=
  found.stored.lookup name

/-- The parameter has a value. -/
def has (found : Matches) (name : String) : Bool :=
  (found.value? name).isSome

/-- Accept a parameter with the values collected for it. -/
def accept (found : Matches) (parameter : Parameter) (values : List String) :
    Except ArgumentError Matches := do
  let value ←
    match parameter.arity, values with
    | .value, [] => .error .invalidValue
    | .flag, [] => .ok "true"
    | .optional missing, [] => .ok missing
    | _, value :: _ => .ok value
  match parameter.effect with
  | .help => .error .displayHelp
  | .version => .error .displayVersion
  | .store =>
    if found.has parameter.name then .error .argumentConflict
    else if parameter.kind.accepts value then
      .ok { found with stored := found.stored ++ [(parameter.name, value)] }
    else .error .invalidValue

/-- Accept the parameter whose values were being collected. -/
def settle (found : Matches) : Except ArgumentError Matches :=
  match found.pending with
  | none => .ok found
  | some pending => accept { found with pending := none } pending.parameter pending.values

/-- Read a switch, with the value attached to it if there is one. -/
def addSwitch (found : Matches) (parameter : Parameter) (attached : Option String) :
    Except ArgumentError Matches := do
  let found ← found.settle
  match parameter.arity, attached with
  | .flag, _ => found.accept parameter []
  | _, some value => found.accept parameter [value]
  | _, none => return { found with pending := some { parameter, more := true } }

/-- Read an argument that begins with two hyphens, without these. -/
def addLong (grammar : Grammar) (found : Matches) (text : List Char) :
    Except ArgumentError Matches :=
  let name := text.takeWhile (· != '=')
  let attached :=
    match text.dropWhile (· != '=') with
    | [] => none
    | _ :: value => some (String.ofList value)
  match grammar.long? (.ofList name) with
  | none => .error .unknownArgument
  | some parameter =>
    if parameter.arity = .flag ∧ attached.isSome then .error .tooManyValues
    else found.addSwitch parameter attached

/-- Read an argument that begins with one hyphen, without it.  Flags may stand together; the first
switch with a value takes the rest, with or without an equals sign before it. -/
def addShorts (grammar : Grammar) (found : Matches) : List Char → Except ArgumentError Matches
  | [] => .ok found
  | c :: cs =>
    match grammar.short? c with
    | none => .error .unknownArgument
    | some parameter =>
      if parameter.arity = .flag then do
        let found ← found.addSwitch parameter none
        addShorts grammar found cs
      else
        match cs with
        | [] => found.addSwitch parameter none
        | '=' :: value => found.addSwitch parameter (some (.ofList value))
        | value => found.addSwitch parameter (some (.ofList value))

/-- Read a value of the switch that takes more, if there is one. -/
def addValue? (found : Matches) (arg : String) : Option Matches :=
  match found.pending with
  | some { parameter, values, more := true } =>
    some { found with pending := some { parameter, values := values ++ [arg], more := false } }
  | _ => none

/-- Why an argument that is no switch cannot be placed. -/
def misplaced (grammar : Grammar) (found : Matches) (arg : String) : ArgumentError :=
  if found.trailing && grammar.isSubcommand arg then .unknownArgument
  else if grammar.subcommands.isEmpty then .unknownArgument
  else .invalidSubcommand

/-- Read a positional argument. -/
def addPositional (grammar : Grammar) (found : Matches) (arg : String) :
    Except ArgumentError Matches :=
  match grammar.positionals[found.position]? with
  | none => .error (found.misplaced grammar arg)
  | some parameter => do
    let found ← found.settle
    return { found with
      position := found.position + 1
      pending := some { parameter, values := [arg], more := false } }

/-- Read an argument that names no subcommand. -/
def add (grammar : Grammar) (found : Matches) (arg : String) : Except ArgumentError Matches :=
  if found.trailing then found.addPositional grammar arg
  else
    match arg.toList with
    | ['-', '-'] =>
      .ok { found with
        trailing := true
        pending := found.pending.map fun pending => { pending with more := false } }
    | '-' :: '-' :: text => found.addLong grammar text
    | '-' :: c :: text => found.addShorts grammar (c :: text)
    | _ =>
      match found.addValue? arg with
      | some found => .ok found
      | none => found.addPositional grammar arg

/-- The next argument cannot be the value of a switch. -/
def isBetween (found : Matches) : Bool :=
  match found.pending with
  | some { more := true, .. } => false
  | _ => true

/-- Read arguments up to a subcommand: what was read, and the subcommand with the arguments after
it. -/
def read (grammar : Grammar) (found : Matches) :
    List String → Except ArgumentError (Matches × Option (String × List String))
  | [] => .ok (found, none)
  | arg :: args =>
    if !found.trailing && found.isBetween && grammar.isSubcommand arg then
      .ok (found, some (arg, args))
    else
      match found.add grammar arg with
      | .error error => .error error
      | .ok found => read grammar found args

/-- Read all arguments of a command without subcommands, every one of whose positional arguments is
required. -/
def readAll (grammar : Grammar) (args : List String) : Except ArgumentError Matches := do
  let (found, _) ← read grammar {} args
  let found ← found.settle
  if found.position < grammar.positionals.length then .error .missingRequired else .ok found

end Matches

end Stencil.CommandLine
