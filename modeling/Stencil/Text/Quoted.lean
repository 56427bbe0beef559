import Stencil.Text.Visible

/-!
# Quoted text

The form in which diagnostics show a piece of text: between double quotes, with escapes for
quotes, backslashes, line breaks, tabs and every character that a reader could not see or tell
apart.
-/

namespace Stencil.Text

/-- The characters of a number in base sixteen, in small letters. -/
def hex (n : Nat) : List Char :=
  Nat.toDigits 16 n

/-- A character that is shown by its number in braces. -/
def isHidden (c : Char) : Bool :=
  if 0x20 ≤ c.toNat && c.toNat < 0x7F then false else isInvisible c || isExtending c

/-- One character inside quotes. -/
def quotedChar (c : Char) : List Char :=
  match c with
  | '\x00' => ['\\', '0']
  | '\t' => ['\\', 't']
  | '\r' => ['\\', 'r']
  | '\n' => ['\\', 'n']
  | '"' => ['\\', '"']
  | '\\' => ['\\', '\\']
  | c => if isHidden c then ['\\', 'u', '\x7b'] ++ hex c.toNat ++ ['\x7d'] else [c]

/-- A text between double quotes. -/
def quoted (s : String) : String :=
  .ofList ('"' :: s.toList.flatMap quotedChar ++ ['"'])

end Stencil.Text
