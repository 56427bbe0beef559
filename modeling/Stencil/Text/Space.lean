/-!
# White space

The characters with the Unicode property White_Space, and the operations on text that are defined
through them: trimming, splitting into words and collapsing every run of white space to one space.
-/

namespace Stencil.Text

/-- A character with the Unicode property White_Space. -/
def isSpace (c : Char) : Bool :=
  let n := c.toNat
  (9 ≤ n && n ≤ 13) || n == 0x20 || n == 0x85 || n == 0xA0 || n == 0x1680 ||
    (0x2000 ≤ n && n ≤ 0x200A) || n == 0x2028 || n == 0x2029 || n == 0x202F || n == 0x205F ||
    n == 0x3000

/-- The text without the white space at its beginning. -/
def trimmedStart (cs : List Char) : List Char :=
  cs.dropWhile isSpace

/-- The text without the white space at its end. -/
def trimmedEnd (cs : List Char) : List Char :=
  (cs.reverse.dropWhile isSpace).reverse

/-- The text without the white space at either end. -/
def trimmed (cs : List Char) : List Char :=
  trimmedEnd (trimmedStart cs)

/-- The text consists of white space only. -/
def isBlank (cs : List Char) : Bool :=
  cs.all isSpace

/-- The word at the very beginning of a text, empty when it begins with white space, and the words
after it. -/
def leadingWord : List Char → List Char × List (List Char)
  | [] => ([], [])
  | c :: cs =>
    let (word, later) := leadingWord cs
    if isSpace c then ([], if word.isEmpty then later else word :: later) else (c :: word, later)

/-- The maximal runs of characters other than white space, in order. -/
def words (cs : List Char) : List (List Char) :=
  let (word, later) := leadingWord cs
  if word.isEmpty then later else word :: later

/-- The words of the text with one space between neighbours. -/
def collapsed (cs : List Char) : List Char :=
  [' '].intercalate (words cs)

/-- A string without the white space at either end. -/
def trim (s : String) : String :=
  .ofList (trimmed s.toList)

/-- A string with every run of white space made one space, and none at either end. -/
def collapse (s : String) : String :=
  .ofList (collapsed s.toList)

/-- A string with the letters A to Z made small. -/
def lower (s : String) : String :=
  .ofList (s.toList.map Char.toLower)

end Stencil.Text
