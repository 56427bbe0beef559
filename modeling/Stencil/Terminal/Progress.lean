import Stencil.Terminal

/-!
# Progress bars

Progress is shown in the rows just above the cursor, one bar per label.  A bar is drawn in its row
and the cursor returns to where it was.  What a run tells its user is a sequence of signals, each of
which the terminal shows above, in or in place of the bars.
-/

namespace Stencil

/-- The progress of one kind of work. -/
structure ProgressBar where
  label : String
  total : Nat
  current : Nat := 0
  deriving DecidableEq, Repr, Inhabited

namespace ProgressBar

/-- The number of steps done, of how many. -/
def counter (bar : ProgressBar) : String :=
  toString bar.current ++ "/" ++ toString bar.total

/-- The number of cells of a bar that are left free by the other text of its row, at least 10 and
at most 40. -/
def cellCount (width taken : Nat) : Nat :=
  max 10 (min 40 (width - taken))

/-- The number of cells that are filled. -/
def filledCount (bar : ProgressBar) (cells : Nat) : Nat :=
  min bar.current bar.total * cells / bar.total

/-- The cells of a bar. -/
def cells (bar : ProgressBar) (count : Nat) : String :=
  ("".pushn '█' (bar.filledCount count)).pushn '░' (count - bar.filledCount count)

/-- The number of columns that the brackets around the cells and the spaces beside them take. -/
def cellMargin : Nat :=
  4

/-- The row of a bar: its label, its cells and its counter. -/
def row (terminal : Terminal) (bar : ProgressBar) : String :=
  let taken :=
    bar.label.utf8ByteSize + Terminal.tagMargin + cellMargin + bar.counter.utf8ByteSize
  terminal.tag bar.label ++ " [" ++ bar.cells (cellCount terminal.width taken) ++ "] " ++
    bar.counter

end ProgressBar

/-- The bars that are shown, from top to bottom. -/
structure Progress where
  bars : List ProgressBar
  deriving DecidableEq, Repr, Inhabited

namespace Progress

/-- The bars for some work, given as labels with numbers of steps.  Labels without a step get no
bar, and there are no bars at all for less than two steps. -/
def start? (work : List (String × Nat)) : Option Progress :=
  let work := work.filter (·.2 > 0)
  if work.foldl (fun steps (_, total) => steps + total) 0 > 1 then
    some ⟨work.map fun (label, total) => { label, total }⟩
  else none

/-- The number of rows taken. -/
def rows (progress : Progress) : Nat :=
  progress.bars.length

/-- Make room for the bars. -/
def opening (progress : Progress) : String :=
  "".pushn '\n' progress.rows

/-- Draw a bar that stands a number of rows above the cursor. -/
def draw (terminal : Terminal) (rows : Nat) (bar : ProgressBar) : String :=
  Terminal.up rows ++ Terminal.clearLine ++ bar.row terminal ++ Terminal.down rows ++ "\r"

/-- Take a step of the first bar with a label, and draw that bar.  The bars end at the cursor. -/
def stepBars (terminal : Terminal) (label : String) :
    List ProgressBar → List ProgressBar × String
  | [] => ([], "")
  | bar :: bars =>
    if bar.label = label then
      let bar := { bar with current := bar.current + 1 }
      (bar :: bars, draw terminal (bars.length + 1) bar)
    else
      let (bars, text) := stepBars terminal label bars
      (bar :: bars, text)

/-- Take a step of the work with a label; unknown labels are ignored. -/
def step (terminal : Terminal) (label : String) (progress : Progress) : Progress × String :=
  let (bars, text) := stepBars terminal label progress.bars
  (⟨bars⟩, text)

/-- Remove the bars. -/
def closing (progress : Progress) : String :=
  Terminal.up progress.rows ++
    String.join (progress.bars.map fun _ => Terminal.clearLine ++ Terminal.down 1) ++
    Terminal.up progress.rows

end Progress

/-! ## Signals -/

/-- What is told to the user. -/
inductive Signal where
  /-- A message, with the stage of the work that it belongs to. -/
  | message (stage text : String)
  /-- Some work begins, given as labels with numbers of steps. -/
  | start (work : List (String × Nat))
  /-- A step of the work with this label is done. -/
  | step (label : String)
  /-- The work is over. -/
  | finish
  deriving DecidableEq, Repr, Inhabited

/-- Display a signal: the bars that there are then, and what is written. -/
def Terminal.display (terminal : Terminal) (progress : Option Progress) :
    Signal → Option Progress × String
  | .message stage text =>
    (progress, terminal.write (progress.elim 0 Progress.rows) stage text)
  | .start work =>
    let progress := Progress.start? work
    (progress, progress.elim "" Progress.opening)
  | .step label =>
    match progress with
    | none => (none, "")
    | some bars =>
      let (bars, text) := bars.step terminal label
      (some bars, text)
  | .finish => (none, progress.elim "" Progress.closing)

end Stencil
