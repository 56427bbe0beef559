import Stencil.Toml

/-!
# Reading TOML scalars

Strings in their four forms, numbers, dates and times.  Every reader gets the text from the scalar
on and gives the scalar with the text after it, or nothing if the text does not begin with one.
-/

namespace Stencil.Toml

/-- A space or a tab. -/
def isBlankChar (c : Char) : Bool :=
  c == ' ' || c == '\t'

/-- A character that comments and strings may hold: a tab or anything that is not a control
character. -/
def isPlainChar (c : Char) : Bool :=
  c == '\t' || (0x20 ≤ c.toNat && c.toNat != 0x7F)

/-- The text without the spaces and tabs at its beginning. -/
def skipBlank (cs : List Char) : List Char :=
  cs.dropWhile isBlankChar

/-- The text after a line break at its beginning. -/
def newline? : List Char → Option (List Char)
  | '\n' :: cs => some cs
  | '\r' :: '\n' :: cs => some cs
  | _ => none

/-! ## Strings -/

/-- The value of a digit in base sixteen. -/
def hexValue? (c : Char) : Option Nat :=
  if '0' ≤ c ∧ c ≤ '9' then some (c.toNat - '0'.toNat)
  else if 'a' ≤ c ∧ c ≤ 'f' then some (c.toNat - 'a'.toNat + 10)
  else if 'A' ≤ c ∧ c ≤ 'F' then some (c.toNat - 'A'.toNat + 10)
  else none

/-- Where the reading of a string stands: in plain text, after a backslash, in the number of a
character, after the carriage return of a line break, after a backslash at the end of a line, or
after some quotes. -/
inductive StringState where
  | plain
  | slash
  | number (digits code : Nat)
  | carriageReturn
  | slashBlank
  | slashCarriageReturn
  | joining
  | joiningCarriageReturn
  | quotes (count : Nat)
  deriving DecidableEq, Repr

namespace StringState

/-- The character that an escape letter stands for. -/
def escaped? : Char → Option Char
  | 'b' => some '\x08'
  | 't' => some '\t'
  | 'n' => some '\n'
  | 'f' => some '\x0c'
  | 'r' => some '\r'
  | '"' => some '"'
  | '\\' => some '\\'
  | _ => none

/-- Read a character after a backslash. -/
def afterSlash (multiline : Bool) (c : Char) : Option (List Char × StringState) :=
  match escaped? c with
  | some d => some ([d], .plain)
  | none =>
    if c = 'u' then some ([], .number 4 0)
    else if c = 'U' then some ([], .number 8 0)
    else if !multiline then none
    else if isBlankChar c then some ([], .slashBlank)
    else if c = '\n' then some ([], .joining)
    else if c = '\r' then some ([], .slashCarriageReturn)
    else none

/-- Read a digit of the number of a character. -/
def afterDigit (digits code : Nat) (c : Char) : Option (List Char × StringState) := do
  let code := code * 16 + (← hexValue? c)
  if digits ≤ 1 then
    if code.isValidChar then some ([Char.ofNat code], .plain) else none
  else some ([], .number (digits - 1) code)

/-- Read a character of plain text. -/
def afterPlain (quote : Char) (escapes multiline : Bool) (c : Char) :
    Option (List Char × StringState) :=
  if c = quote then some ([], .quotes 1)
  else if c = '\\' ∧ escapes then some ([], .slash)
  else if isPlainChar c then some ([c], .plain)
  else if !multiline then none
  else if c = '\n' then some ([c], .plain)
  else if c = '\r' then some ([], .carriageReturn)
  else none

/-- Read a character in any state but that after quotes. -/
def next (quote : Char) (escapes multiline : Bool) (c : Char) :
    StringState → Option (List Char × StringState)
  | .plain | .quotes _ => afterPlain quote escapes multiline c
  | .slash => afterSlash multiline c
  | .number digits code => afterDigit digits code c
  | .carriageReturn => if c = '\n' then some (['\n'], .plain) else none
  | .slashBlank =>
    if isBlankChar c then some ([], .slashBlank)
    else if c = '\n' then some ([], .joining)
    else if c = '\r' then some ([], .slashCarriageReturn)
    else none
  | .slashCarriageReturn | .joiningCarriageReturn =>
    if c = '\n' then some ([], .joining) else none
  | .joining =>
    if isBlankChar c || c == '\n' then some ([], .joining)
    else if c = '\r' then some ([], .joiningCarriageReturn)
    else afterPlain quote escapes multiline c

end StringState

/-- Read a string on one line after its opening quote. -/
def lineString (quote : Char) (escapes : Bool) :
    StringState → List Char → Option (List Char × List Char)
  | .quotes _, cs => some ([], cs)
  | _, [] => none
  | state, c :: cs => do
    let (value, state) ← state.next quote escapes false c
    let (values, rest) ← lineString quote escapes state cs
    return (value ++ values, rest)

/-- Read a string on several lines after its opening quotes.  It ends with three quotes, before
which up to two more belong to its value. -/
def linesString (quote : Char) (escapes : Bool) :
    StringState → List Char → Option (List Char × List Char)
  | .quotes count, [] => if 3 ≤ count then some (List.replicate (count - 3) quote, []) else none
  | _, [] => none
  | .quotes count, c :: cs =>
    if count = 5 then some ([quote, quote], c :: cs)
    else if c = quote then linesString quote escapes (.quotes (count + 1)) cs
    else if 3 ≤ count then some (List.replicate (count - 3) quote, c :: cs)
    else do
      let (value, state) ← StringState.afterPlain quote escapes true c
      let (values, rest) ← linesString quote escapes state cs
      return (List.replicate count quote ++ value ++ values, rest)
  | state, c :: cs => do
    let (value, state) ← state.next quote escapes true c
    let (values, rest) ← linesString quote escapes state cs
    return (value ++ values, rest)

/-- Read a string of one line, quotes included. -/
def lineString? : List Char → Option (List Char × List Char)
  | '"' :: cs => lineString '"' true .plain cs
  | '\'' :: cs => lineString '\'' false .plain cs
  | _ => none

/-- Read a string in any of the four forms.  A line break right after three opening quotes does
not count. -/
def string? : List Char → Option (List Char × List Char)
  | '"' :: '"' :: '"' :: cs => linesString '"' true .plain ((newline? cs).getD cs)
  | '\'' :: '\'' :: '\'' :: cs => linesString '\'' false .plain ((newline? cs).getD cs)
  | cs => lineString? cs

/-! ## Numbers -/

/-- A digit of the given base. -/
def isDigitOf (base : Nat) (c : Char) : Bool :=
  match hexValue? c with
  | some n => n < base
  | none => false

/-- Read digits, between which single underscores may stand. -/
def moreDigits? (base : Nat) : List Char → Option (List Char × List Char)
  | [] => some ([], [])
  | '_' :: d :: cs =>
    if isDigitOf base d then (moreDigits? base cs).map fun (ds, rest) => (d :: ds, rest) else none
  | c :: cs =>
    if c = '_' then none
    else if isDigitOf base c then (moreDigits? base cs).map fun (ds, rest) => (c :: ds, rest)
    else some ([], c :: cs)

/-- Read at least one digit. -/
def digits? (base : Nat) : List Char → Option (List Char × List Char)
  | [] => none
  | c :: cs =>
    if isDigitOf base c then (moreDigits? base cs).map fun (ds, rest) => (c :: ds, rest) else none

/-- The number that digits of a base make up. -/
def numberOf (base : Nat) (digits : List Char) : Nat :=
  digits.foldl (fun n c => n * base + (hexValue? c).getD 0) 0

/-- Read an optional sign; `true` stands for minus. -/
def sign : List Char → Bool × List Char
  | '+' :: cs => (false, cs)
  | '-' :: cs => (true, cs)
  | cs => (false, cs)

/-- Read the digits of a decimal integer: a single zero, or digits that do not begin with zero. -/
def wholeDigits? : List Char → Option (List Char × List Char)
  | '0' :: cs => some (['0'], cs)
  | cs => digits? 10 cs

/-- The bound that all integers stay below, and above or at the negative of which they are:
`2 ^ 63`. -/
def integerBound : Int :=
  9223372036854775808

/-- The integer with the given magnitude, if it has at most 64 bits. -/
def integer? (negative : Bool) (magnitude : Nat) : Option Toml :=
  let n : Int := if negative then -(magnitude : Int) else magnitude
  if -integerBound ≤ n ∧ n < integerBound then some (.integer n) else none

/-- Read the digits after a point, if there is one. -/
def fraction? : List Char → Option (List Char × List Char)
  | '.' :: cs => digits? 10 cs
  | cs => some ([], cs)

/-- Read an exponent, if there is one. -/
def exponent? : List Char → Option (Option Int × List Char)
  | c :: cs =>
    if c = 'e' ∨ c = 'E' then do
      let (negative, cs) := sign cs
      let (digits, rest) ← digits? 10 cs
      let n : Int := numberOf 10 digits
      return (some (if negative then -n else n), rest)
    else some (none, c :: cs)
  | [] => some (none, [])

/-- Read a decimal integer or a decimal float after its sign.  A float beyond the greatest double
is refused, one below the least is not. -/
def decimal? (negative : Bool) (cs : List Char) : Option (Toml × List Char) := do
  let (whole, cs) ← wholeDigits? cs
  let (places, afterPoint) ← fraction? cs
  let (exponent, rest) ← exponent? afterPoint
  if places.isEmpty ∧ exponent.isNone then return (← integer? negative (numberOf 10 whole), rest)
  else
    let digits := whole ++ places
    let value :=
      Binary64.ofDecimal negative digits.length (numberOf 10 digits)
        (exponent.getD 0 - places.length)
    if value = .infinite false then none else some (.float value, rest)

/-- Read an integer or a float. -/
def number? (cs : List Char) : Option (Toml × List Char) :=
  let based (base : Nat) (cs : List Char) : Option (Toml × List Char) := do
    let (digits, rest) ← digits? base cs
    return (← integer? false (numberOf base digits), rest)
  match cs with
  | '0' :: 'x' :: cs => based 16 cs
  | '0' :: 'o' :: cs => based 8 cs
  | '0' :: 'b' :: cs => based 2 cs
  | _ =>
    match sign cs with
    | (negative, 'i' :: 'n' :: 'f' :: cs) => some (.float (.infinite negative), cs)
    | (_, 'n' :: 'a' :: 'n' :: cs) => some (.float .nan, cs)
    | (negative, cs) => decimal? negative cs

/-! ## Dates and times -/

/-- Read a number of exactly `count` digits that is between the bounds. -/
def fixedNumber? (count low high : Nat) (cs : List Char) : Option (List Char × List Char) :=
  let digits := cs.take count
  let n := numberOf 10 digits
  if digits.length = count ∧ digits.all (isDigitOf 10) ∧ low ≤ n ∧ n ≤ high then
    some (digits, cs.drop count)
  else none

/-- Read the given character. -/
def char? (c : Char) : List Char → Option (List Char)
  | [] => none
  | d :: cs => if d = c then some cs else none

/-- The number of days of a month. -/
def daysIn (year month : Nat) : Nat :=
  if month = 2 then
    if year % 4 = 0 ∧ (year % 100 ≠ 0 ∨ year % 400 = 0) then 29 else 28
  else if month = 4 ∨ month = 6 ∨ month = 9 ∨ month = 11 then 30
  else 31

/-- Read a date: its text. -/
def date? (cs : List Char) : Option (List Char × List Char) := do
  let (year, cs) ← fixedNumber? 4 0 9999 cs
  let cs ← char? '-' cs
  let (month, cs) ← fixedNumber? 2 1 12 cs
  let cs ← char? '-' cs
  let (day, cs) ← fixedNumber? 2 1 (daysIn (numberOf 10 year) (numberOf 10 month)) cs
  return (year ++ '-' :: month ++ '-' :: day, cs)

/-- Read the part of a second after the point, if there is one: at most nine digits of it, without
zeros at the end. -/
def secondFraction? : List Char → Option (List Char × List Char)
  | '.' :: cs =>
    let digits := cs.takeWhile (isDigitOf 10)
    let kept := ((digits.take 9).reverse.dropWhile (· == '0')).reverse
    if digits.isEmpty then none
    else some (if kept.isEmpty then [] else '.' :: kept, cs.drop digits.length)
  | cs => some ([], cs)

/-- Read a time of day: its text. -/
def time? (cs : List Char) : Option (List Char × List Char) := do
  let (hour, cs) ← fixedNumber? 2 0 23 cs
  let cs ← char? ':' cs
  let (minute, cs) ← fixedNumber? 2 0 59 cs
  let cs ← char? ':' cs
  let (second, cs) ← fixedNumber? 2 0 60 cs
  let (part, cs) ← secondFraction? cs
  return (hour ++ ':' :: minute ++ ':' :: second ++ part, cs)

/-- Read the offset of a time zone, if there is one: its text. -/
def offset? : List Char → Option (List Char × List Char)
  | [] => some ([], [])
  | c :: cs =>
    if c = 'Z' ∨ c = 'z' then some (['Z'], cs)
    else if c = '+' ∨ c = '-' then do
      let (hour, cs) ← fixedNumber? 2 0 23 cs
      let cs ← char? ':' cs
      let (minute, cs) ← fixedNumber? 2 0 59 cs
      return (c :: hour ++ ':' :: minute, cs)
    else some ([], c :: cs)

/-- Read the time that follows a date, if there is one. -/
def timeAfterDate? : List Char → Option (List Char × List Char)
  | [] => some ([], [])
  | c :: cs =>
    if c = 'T' ∨ c = 't' ∨ c = ' ' then
      match time? cs with
      | some (time, rest) =>
        (offset? rest).map fun (offset, rest) => ('T' :: time ++ offset, rest)
      | none => if c = ' ' then some ([], c :: cs) else none
    else some ([], c :: cs)

/-- Read a date, a time or both. -/
def datetime? (cs : List Char) : Option (Toml × List Char) :=
  match date? cs with
  | some (date, rest) => do
    let (time, rest) ← timeAfterDate? rest
    return (.datetime (.ofList (date ++ time)), rest)
  | none => (time? cs).map fun (time, rest) => (.datetime (.ofList time), rest)

/-- Read a scalar. -/
def scalar? (cs : List Char) : Option (Toml × List Char) :=
  match cs with
  | [] => none
  | c :: _ =>
    if c = '"' ∨ c = '\'' then
      (string? cs).map fun (value, rest) => (.string (.ofList value), rest)
    else
      match cs with
      | 't' :: 'r' :: 'u' :: 'e' :: rest => some (.boolean true, rest)
      | 'f' :: 'a' :: 'l' :: 's' :: 'e' :: rest => some (.boolean false, rest)
      | _ => datetime? cs <|> number? cs

end Stencil.Toml
