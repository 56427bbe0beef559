/-!
# Terminals

Messages are written one a line, behind the stage of the work that they belong to.  What is written
is text with control sequences; nothing is read back from the terminal.
-/

namespace Stencil

/-- What is known of a terminal. -/
structure Terminal where
  /-- The number of columns. -/
  width : Nat := 120
  /-- Stages are written in color. -/
  colored : Bool := false
  deriving DecidableEq, Repr, Inhabited

namespace Terminal

/-! ## Control sequences -/

/-- A control sequence. -/
def control (body : String) : String :=
  "\x1b[" ++ body

/-- Move the cursor up. -/
def up (rows : Nat) : String :=
  control (toString rows ++ "A")

/-- Move the cursor down. -/
def down (rows : Nat) : String :=
  control (toString rows ++ "B")

/-- Clear the line of the cursor. -/
def clearLine : String :=
  control "2K"

/-- Clear from the cursor to the end of its line. -/
def clearToEnd : String :=
  control "K"

/-- Clear everything from the cursor on. -/
def clearBelow : String :=
  control "J"

/-- Return to plain text. -/
def reset : String :=
  control "0m"

/-- Switch to bold text in a color. -/
def bold (color : Nat) : String :=
  control ("1;" ++ toString color ++ "m")

/-! ## Stages -/

/-- The name of a stage in lower case, as far as it is ASCII. -/
def stageName (stage : String) : String :=
  stage.map Char.toLower

/-- The bright color of a stage. -/
def stageColor (stage : String) : Nat :=
  match stageName stage with
  | "export" => 94
  | "layout" => 92
  | "warn" => 95
  | "error" => 91
  | _ => 93

/-- A text in a color.  The color is taken up again where the text itself returns to plain. -/
def paint (terminal : Terminal) (color : Nat) (text : String) : String :=
  if terminal.colored then
    bold color ++ text.replace reset (reset ++ bold color) ++ reset
  else text

/-- A stage between brackets, in its color. -/
def tag (terminal : Terminal) (stage : String) : String :=
  terminal.paint (stageColor stage) ("[" ++ stage ++ "]")

/-- The number of columns that the brackets and the space after them take. -/
def tagMargin : Nat :=
  3

/-! ## Messages -/

/-- Cut a text to a number of characters.  The last of them marks the cut. -/
def fit (limit : Nat) (text : String) : String :=
  if text.length ≤ limit then text
  else if limit = 0 then ""
  else .ofList (text.toList.take (limit - 1) ++ ['…'])

/-- Messages of these stages are never cut, because they name files. -/
def keepsLine (stage : String) : Bool :=
  stageName stage == "warn" || stageName stage == "error"

/-- The part of a message that is shown.  A message of one line is cut so that it does not wrap. -/
def shown (terminal : Terminal) (stage message : String) : String :=
  if message.contains '\n' || keepsLine stage then message
  else fit (terminal.width - (stage.utf8ByteSize + tagMargin)) message

/-- Write a message above the last rows, which are cleared and left empty. -/
def write (terminal : Terminal) (rows : Nat) (stage message : String) : String :=
  (if rows = 0 then clearToEnd else up rows ++ clearBelow) ++
    terminal.tag stage ++ " " ++ terminal.shown stage message ++ "\n" ++ "".pushn '\n' rows

end Terminal

end Stencil
