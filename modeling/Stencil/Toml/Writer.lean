/-!
# Written form of TOML keys and strings

A key is bare where it can be.  A string takes the first of five forms that it fits: basic,
literal, multi-line basic without escapes, multi-line literal, and a basic form with escapes, on
several lines if the string has line breaks.
-/

namespace Stencil.Toml

/-- A control character other than tab and line feed. -/
def isControl (c : Char) : Bool :=
  (c.toNat < 0x20 || c.toNat == 0x7F) && c != '\t' && c != '\n'

/-- The number of the longest run of `c`. -/
def longestRun (c : Char) (cs : List Char) : Nat :=
  go 0 cs
where
  /-- The longest run, given the length of the run that ends here. -/
  go (run : Nat) : List Char → Nat
    | [] => run
    | d :: ds => if d = c then go (run + 1) ds else max run (go 0 ds)

/-- A digit in base sixteen, with capital letters. -/
def hexDigit (n : Nat) : Char :=
  (Nat.digitChar n).toUpper

/-- A character other than a quote inside a basic string; line feeds stand for themselves on
several lines. -/
def basicChar (multiline : Bool) (c : Char) : List Char :=
  match c with
  | '\x08' => ['\\', 'b']
  | '\t' => ['\\', 't']
  | '\x0c' => ['\\', 'f']
  | '\r' => ['\\', 'r']
  | '\\' => ['\\', '\\']
  | '\n' => if multiline then ['\n'] else ['\\', 'n']
  | c =>
    if isControl c then
      ['\\', 'u', '0', '0', hexDigit (c.toNat / 16), hexDigit (c.toNat % 16)]
    else [c]

/-- The inside of a basic string.  Up to `allowed` quotes in a row stand for themselves, of which
`left` more may follow here. -/
def basicChars (multiline : Bool) (allowed : Nat) : Nat → List Char → List Char
  | _, [] => []
  | left, c :: cs =>
    if c = '"' then
      if left = 0 then '\\' :: '"' :: basicChars multiline allowed allowed cs
      else '"' :: basicChars multiline allowed (left - 1) cs
    else basicChar multiline c ++ basicChars multiline allowed allowed cs

/-- A string between single quotation marks. -/
def basic (cs : List Char) : List Char :=
  '"' :: basicChars false 0 0 cs ++ ['"']

/-- A string between single apostrophes, without escapes. -/
def literal (cs : List Char) : List Char :=
  '\'' :: cs ++ ['\'']

/-- The line break after the opening quotes of a string with line breaks. -/
def openingBreak (cs : List Char) : List Char :=
  if cs.contains '\n' then ['\n'] else []

/-- A string between triple quotation marks. -/
def multilineBasic (cs : List Char) : List Char :=
  ['"', '"', '"'] ++ openingBreak cs ++ basicChars true 2 2 cs ++ ['"', '"', '"']

/-- A string between triple apostrophes, without escapes. -/
def multilineLiteral (cs : List Char) : List Char :=
  ['\'', '\'', '\''] ++ openingBreak cs ++ cs ++ ['\'', '\'', '\'']

/-- A string in the first form that it fits. -/
def stringChars (cs : List Char) : List Char :=
  let control := cs.any isControl
  let newline := cs.contains '\n'
  let slash := cs.contains '\\'
  if !cs.contains '"' && !slash && !newline && !control then basic cs
  else if !cs.contains '\'' && !newline && !control then literal cs
  else if !slash && !control && longestRun '"' cs ≤ 2 then multilineBasic cs
  else if !control && longestRun '\'' cs ≤ 2 then multilineLiteral cs
  else if newline then multilineBasic cs
  else basic cs

/-- A character of a bare key. -/
def isBareKeyChar (c : Char) : Bool :=
  c.isAlphanum || c == '_' || c == '-'

/-- A key in the first form that it fits. -/
def keyChars (cs : List Char) : List Char :=
  let control := cs.any fun c => isControl c || c == '\n'
  if !cs.isEmpty && cs.all isBareKeyChar then cs
  else if !cs.contains '"' && !cs.contains '\\' && !control then basic cs
  else if !cs.contains '\'' && !control then literal cs
  else basic cs

/-- The written form of a string. -/
def writeString (s : String) : String :=
  .ofList (stringChars s.toList)

/-- The written form of a key. -/
def writeKey (s : String) : String :=
  .ofList (keyChars s.toList)

/-- A line that gives a key its value. -/
def assignment (name value : String) : String :=
  writeKey name ++ " = " ++ value ++ "\n"

end Stencil.Toml
