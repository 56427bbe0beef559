import Stencil.Toml.Scalar
import Stencil.Toml.Table

/-!
# Reading TOML documents

A document is a list of lines: headers, pairs and comments.  Values nest at most 79 deep, and a key
has at most 79 parts.  Repetitions are bounded by the length of the text, as every item of a list
takes up at least one character.
-/

namespace Stencil.Toml

/-- The greatest number of values inside each other, and of parts of a key. -/
def maxDepth : Nat :=
  79

/-! ## Keys -/

/-- A character of a bare key. -/
def isBareChar (c : Char) : Bool :=
  c.isAlphanum || c == '_' || c == '-'

/-- Read one part of a key. -/
def keyPart? (cs : List Char) : Option (String × List Char) :=
  match lineString? cs with
  | some (value, rest) => some (.ofList value, rest)
  | none =>
    let value := cs.takeWhile isBareChar
    if value.isEmpty then none else some (.ofList value, cs.dropWhile isBareChar)

/-- Read the parts of a key, with the blanks around them. -/
def keyParts? : Nat → List Char → Option (List String × List Char)
  | 0, _ => none
  | limit + 1, cs => do
    let (part, rest) ← keyPart? (skipBlank cs)
    match skipBlank rest with
    | '.' :: rest => do
      let (parts, rest) ← keyParts? limit rest
      return (part :: parts, rest)
    | rest => return ([part], rest)

/-- Read a key: the parts before its last one, and the last one. -/
def key? (cs : List Char) : Option ((List String × String) × List Char) := do
  let (parts, rest) ← keyParts? maxDepth cs
  return ((parts.dropLast, ← parts.getLast?), rest)

/-! ## Values -/

/-- Skip a comment, if there is one, but not the line break after it. -/
def skipComment : List Char → List Char
  | '#' :: cs => cs.dropWhile isPlainChar
  | cs => cs

/-- Skip blanks, comments and line breaks inside an array. -/
def skipLines : Nat → List Char → List Char
  | 0, cs => cs
  | limit + 1, cs =>
    let afterBlank := skipBlank cs
    match newline? (skipComment afterBlank) with
    | some rest => skipLines limit rest
    | none => afterBlank

/-- Read the items of an array after its opening bracket or a comma, and the closing bracket. -/
def items? (value? : List Char → Option (Toml × List Char)) :
    Nat → List Char → Option (List Toml × List Char)
  | 0, _ => none
  | limit + 1, cs =>
    match skipLines limit cs with
    | ']' :: rest => some ([], rest)
    | cs => do
      let (item, rest) ← value? cs
      match skipLines limit rest with
      | ',' :: rest => do
        let (items, rest) ← items? value? limit rest
        return (item :: items, rest)
      | ']' :: rest => return ([item], rest)
      | _ => none

/-- Read the value of a pair after its key. -/
def pairValue? (value? : List Char → Option (Toml × List Char)) (cs : List Char) :
    Option (Toml × List Char) := do
  value? (skipBlank (← char? '=' cs))

/-- Read the pairs of an inline table and its closing brace. -/
def pairs? (value? : List Char → Option (Toml × List Char)) :
    Nat → Table → List Char → Option (Table × List Char)
  | 0, _, _ => none
  | limit + 1, built, cs => do
    let ((path, key), rest) ← key? cs
    let (value, rest) ← pairValue? value? rest
    let built ← built.addPair path key value
    match skipBlank rest with
    | ',' :: rest => pairs? value? limit built rest
    | '\x7d' :: rest => return (built, rest)
    | _ => none

/-- Read a value inside which values nest at most `depth` deep. -/
def value? : Nat → List Char → Option (Toml × List Char)
  | 0, cs => scalar? cs
  | depth + 1, cs =>
    match cs with
    | '[' :: rest => do
      let (items, rest) ← items? (value? depth) (rest.length + 1) rest
      return (.array items, rest)
    | '\x7b' :: rest =>
      match skipBlank rest with
      | '\x7d' :: rest => some (.table [], rest)
      | _ => do
        let (built, rest) ← pairs? (value? depth) (rest.length + 1) {} rest
        return (built.toToml, rest)
    | cs => scalar? cs

/-! ## Documents -/

/-- Read the end of a line: blanks, a comment, and a line break or the end of the text. -/
def lineEnd? (cs : List Char) : Option (List Char) :=
  match skipComment (skipBlank cs) with
  | [] => some []
  | rest => newline? rest

/-- Read a header after its brackets, up to the closing ones. -/
def header? (closing : List Char → Option (List Char)) (cs : List Char) :
    Option ((List String × String) × List Char) := do
  let (key, rest) ← key? cs
  return (key, ← lineEnd? (← closing rest))

/-- Read a header or a pair, with the end of its line. -/
def statement? : List Char → Option (Statement × List Char)
  | '[' :: '[' :: cs => do
    let ((path, key), rest) ← header? (fun cs => do char? ']' (← char? ']' cs)) cs
    return (.tables path key, rest)
  | '[' :: cs => do
    let ((path, key), rest) ← header? (char? ']') cs
    return (.table path key, rest)
  | cs => do
    let ((path, key), rest) ← key? cs
    let (value, rest) ← pairValue? (value? maxDepth) rest
    return (.pair path key value, ← lineEnd? rest)

/-- Read the statements of a document of at most `limit` lines. -/
def statements? : Nat → List Char → Option (List Statement)
  | 0, _ => none
  | limit + 1, cs =>
    match skipBlank cs with
    | [] => some []
    | c :: rest =>
      if c = '#' ∨ c = '\n' ∨ c = '\r' then do statements? limit (← lineEnd? (c :: rest))
      else do
        let (statement, rest) ← statement? (c :: rest)
        let statements ← statements? limit rest
        return statement :: statements

/-- Read a document.  A byte order mark at its beginning does not count. -/
def parse? (text : String) : Option Toml := do
  let cs :=
    match text.toList with
    | '\uFEFF' :: cs => cs
    | cs => cs
  Progress.document (← statements? (cs.length + 1) cs)

end Stencil.Toml
