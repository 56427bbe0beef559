import Stencil.Run
import Stencil.Terminal

/-!
# The program

The disk is read into a file tree, as far as the run needs it; the plan is made for that tree, and
its changes are made on the disk.  Everything that is decided is decided by the plan.
-/

namespace Stencil.Program

open CommandLine

/-- A time in nanoseconds. -/
def nanoseconds (time : IO.FS.SystemTime) : Nat :=
  time.sec.toNat * 1000000000 + time.nsec.toNat

/-! ## Reading the disk -/

/-- Read what is at an absolute path, with all its entries if `deep` is set. -/
partial def load? (deep : Bool) (path : String) : IO (Option FileTree) := do
  let file := (← IO.currentDir) / path
  unless ← file.pathExists do return none
  let modified := nanoseconds (← file.metadata).modified
  if ← file.isDir then
    unless deep do return some (.empty modified)
    let names := (← file.readDir).toList.map (·.fileName)
    let entries ← names.mergeSort.filterMapM fun name => do
      return (← load? deep (Path.join path name)).map (name, ·)
    return some (.directory entries modified)
  else return some (.file (← IO.FS.readBinFile path) modified)

/-- Add what is at an absolute path to a tree, and the directories on the way to it.  Unless
`deep` is set, what the tree already has stays. -/
def survey (deep : Bool) (path : String) (tree : FileTree) : IO FileTree := do
  let mut tree := tree
  let mut place : Place := []
  for segment in Path.segments path do
    place :=
      if segment = Path.here then place
      else if segment = Path.above then place.dropLast
      else place ++ [segment]
    if (tree.at? place).isNone then
      if let some found ← load? false (Path.ofNames place) then tree := tree.put place found
  if deep then
    if let some found ← load? true path then tree := tree.put place found
  return tree

/-- The part of the disk that a run reads: its settings file, and the files that it names. -/
def observe (invocation : Invocation) (current : String) : IO FileTree := do
  let tree ← survey true (Path.join current invocation.configPath) (.empty 0)
  let tree ← survey false current tree
  let .ok settings := invocation.fileSettings current tree | return tree
  match invocation.command with
  | .diff anchor other _ _ =>
    let tree ← survey true (Path.join current anchor) tree
    survey true (Path.join current other) tree
  | .build .. | .json .. =>
    let root := Path.join current (invocation.root.getD settings.root)
    let tree ← survey false root tree
    let output := Path.join root (invocation.output.getD settings.build.output)
    let tree ← survey false output tree
    survey true (Path.join root (invocation.source.getD settings.build.source)) tree

/-! ## Talking to the user -/

/-- What a run does: it can fail, and it shows bars. -/
abbrev Session := ExceptT Failure (StateT (Option Progress) IO)

/-- Tell something to the user. -/
def tell (signal : Signal) : Session Unit := do
  let terminal : Terminal := {}
  let (progress, text) := terminal.display (← get) signal
  set progress
  (IO.eprint text : IO Unit)

/-- How the program is called. -/
def usage : String :=
  "usage: [-r ROOT] [-s SOURCE] [-o OUTPUT] [-C CONFIG] COMMAND\n" ++
    "  build [--clean] [--trim-whitespace [true|false]]\n" ++
    "  json [-p] [--collection KEY]\n" ++
    "  diff [-p] [--content SELECTOR] ANCHOR OTHER"

/-- The version of the program. -/
def version : String :=
  "0.1.0"

/-- Answer arguments that are not a run. -/
def refuse : ArgumentError → IO UInt32
  | .displayHelp => do
    IO.println usage
    return 0
  | .displayVersion => do
    IO.println version
    return 0
  | error => do
    IO.eprintln ("error: " ++ error.label ++ "\n\n" ++ usage)
    return 2

/-! ## Changing the disk -/

/-- Report another failure in place of what the system says. -/
def reporting (failure : Failure) (action : IO Unit) : Session Unit := do
  match ← action.toBaseIO with
  | .ok () => return
  | .error _ => throw failure

/-- Make the directories on the way to a path. -/
def makeParents (path : String) : IO Unit := do
  if let some parent := ((← IO.currentDir) / path).parent then IO.FS.createDirAll parent

/-- The time of the last change of what is at a path. -/
def modified? (path : String) : IO (Option Nat) := do
  match ← ((← IO.currentDir) / path).metadata.toBaseIO with
  | .ok found => return some (nanoseconds found.modified)
  | .error _ => return none

/-- Copy a file that is not up to date, or any file with `always`. -/
def copy (source target : String) (always : Bool) : IO Unit := do
  unless !always && FileTree.isUpToDate (← modified? source) (← modified? target) do
    makeParents target
    IO.FS.writeBinFile target (← IO.FS.readBinFile source)

/-- Make a change on the disk. -/
def perform : Change → Session Unit
  | .clear directory =>
    reporting (.unclearable directory) do
      if ← ((← IO.currentDir) / directory).pathExists then IO.FS.removeDirAll directory
  | .create directory => reporting (.uncreatable directory) (IO.FS.createDirAll directory)
  | .write path contents => do
    reporting (.system .notDirectory) (makeParents path)
    reporting (.unwritable path) (IO.FS.writeFile path contents)
  | .copy source target always => do
    match ← (copy source target always).toBaseIO with
    | .ok () => return
    | .error error =>
      tell (.message "error" (source ++ ": " ++ toString error))
      throw .uncopied

/-! ## Runs -/

/-- Carry out a plan.  No bars are left when it fails. -/
def carryOut (plan : Plan) : Session Unit := do
  try
    plan.steps.forM fun
      | .tell signal => tell signal
      | .make change => perform change
  catch failure =>
    tell .finish
    throw failure
  (IO.print plan.output : IO Unit)

/-- Run a command on the disk. -/
def execute (invocation : Invocation) : Session Unit := do
  let current := (← (IO.currentDir : IO _)).toString
  let tree ← observe invocation current
  (invocation.opening current tree).forM tell
  match invocation.plan current tree with
  | .error failure => throw failure
  | .ok plan => carryOut plan

end Stencil.Program

/-- Run the program; a run that fails exits with 1, and arguments that are no run with 2. -/
def main (args : List String) : IO UInt32 := do
  match Stencil.CommandLine.parse args with
  | .error error => Stencil.Program.refuse error
  | .ok invocation =>
    match ← (Stencil.Program.execute invocation).run.run' none with
    | .ok () => return 0
    | .error failure =>
      IO.eprintln ("Error: " ++ failure.message)
      return 1
