import Stencil.Markup.Attributes
import Stencil.Markup.Builder
import Stencil.Text.Utf8

/-!
# Reading markup

Reading turns tokens into events and events into a tree.  It knows three rules that the tokens
alone do not show: elements of the void class are complete at once, the text of script and style
elements runs to their end tag and is kept as it is, and names are made small.

A byte order mark at the beginning is skipped.  Places are counted in bytes after it.
-/

namespace Stencil.Markup

/-- Why markup cannot be read. -/
inductive Fault where
  /-- The text from `rest` on is not markup. -/
  | malformed (rest : List Char)
  /-- A script or style element has no end tag. -/
  | unclosed
  deriving DecidableEq, Repr, Inhabited

/-- The place of a fault in the markup that it was found in. -/
def Fault.position (markup : List Char) : Fault → Nat
  | .malformed rest => Text.byteLength markup - Text.byteLength rest
  | .unclosed => 0

/-- Read a token. -/
def nextToken (c : Char) (cs : List Char) : Except Fault (Token × List Char) :=
  match readToken c cs with
  | .ok result => .ok result
  | .error rest => .error (.malformed rest)

theorem nextToken_length {c : Char} {cs rest : List Char} {token : Token}
    (h : nextToken c cs = .ok (token, rest)) : rest.length < (c :: cs).length := by
  rw [nextToken] at h
  cases hr : readToken c cs with
  | error e => simp [hr] at h
  | ok result =>
    simp only [hr, Except.ok.injEq] at h
    subst h
    exact readToken_length hr

/-! ## Script and style elements -/

/-- Find the end tag of an element inside which `depth` elements of its name are open: the text
from the end tag on, and the text after it. -/
def findEnd (name : List Char) (depth : Nat) (cs : List Char) :
    Except Fault (List Char × List Char) :=
  match cs with
  | [] => .error .unclosed
  | c :: rest =>
    match h : nextToken c rest with
    | .error fault => .error fault
    | .ok (.startTag inner _, later) =>
      findEnd name (if inner = name then depth + 1 else depth) later
    | .ok (.endTag inner, later) =>
      if inner = name then
        if depth = 0 then .ok (c :: rest, later) else findEnd name (depth - 1) later
      else findEnd name depth later
    | .ok (_, later) => findEnd name depth later
termination_by cs.length
decreasing_by all_goals exact nextToken_length h

theorem findEnd_length {name : List Char} {depth : Nat} {cs tag rest : List Char}
    (h : findEnd name depth cs = .ok (tag, rest)) : rest.length ≤ cs.length := by
  fun_induction findEnd name depth cs with
  | case1 => cases h
  | case2 => cases h
  | case3 depth c cs inner attrs later ht ih =>
    exact Nat.le_trans (ih h) (Nat.le_of_lt (nextToken_length ht))
  | case4 c cs later =>
    cases h
    exact Nat.le_of_lt (nextToken_length ‹_›)
  | case5 | case6 | case7 =>
    rename_i ih
    exact Nat.le_trans (ih h) (Nat.le_of_lt (nextToken_length ‹_›))

/-- The text of a script or style element, given its start tag without the brackets and what
stands between the tags.  After a byte order mark the text begins and ends three bytes early. -/
def rawText (marked : Bool) (tag body : List Char) : List Char :=
  if marked then
    let before := (Text.encode (tag ++ ['>'])).reverse.take 3
    let body := Text.encode body
    Text.decodeLossy ((before.reverse ++ body).take body.length)
  else body

/-- The children of a script or style element: its text, unless that is blank. -/
def rawChildren (text : List Char) : List Node :=
  if Text.isBlank text then [] else [.text (.ofList text)]

/-! ## Events -/

/-- The event of a token that is not a start tag. -/
def eventOf : Token → Option Event
  | .startTag name attrs => some (.opened (smallName name) (attributes attrs))
  | .emptyTag name attrs => some (.node (.element (smallName name) (attributes attrs) []))
  | .endTag name => some (.closed (smallName name))
  | .text value | .characterData value => some (.text value)
  | .reference name => some (.text (unescape ('&' :: name ++ [';'])))
  | .comment value => some (.node (.comment (.ofList (Text.trimmed value))))
  | .doctype value => some (.node (.doctype (.ofList (Text.trimmed value))))
  | .instruction => none

/-- The events of markup; `marked` tells whether a byte order mark came before it. -/
def readEvents (marked : Bool) (cs : List Char) : Except Fault (List Event) :=
  match cs with
  | [] => .ok []
  | c :: rest =>
    match _h : nextToken c rest with
    | .error fault => .error fault
    | .ok (.startTag name attrs, later) =>
      let small := smallName name
      if isVoidElement small then
        (readEvents marked later).map (.node (.element small (attributes attrs) []) :: ·)
      else if isRawTextElement small then
        match _hf : findEnd name 0 later with
        | .error fault => .error fault
        | .ok (tag, after) =>
          let text := rawText marked (name ++ attrs) (later.take (later.length - tag.length))
          (readEvents marked after).map
            (.node (.element small (attributes attrs) (rawChildren text)) :: ·)
      else (readEvents marked later).map (.opened small (attributes attrs) :: ·)
    | .ok (token, later) => (readEvents marked later).map ((eventOf token).toList ++ ·)
termination_by cs.length
decreasing_by
  · exact nextToken_length _h
  · exact Nat.lt_of_le_of_lt (findEnd_length _hf) (nextToken_length _h)
  · exact nextToken_length _h
  · exact nextToken_length _h

/-! ## Trees -/

/-- Markup without the byte order mark at its beginning, and whether there was one. -/
def unmark : List Char → Bool × List Char
  | '\uFEFF' :: cs => (true, cs)
  | cs => (false, cs)

/-- Read markup.  With `collapse`, white space in text is collapsed and blank text dropped.  An
error is the place in bytes at which the markup is malformed. -/
def parse (collapse : Bool) (markup : String) : Except Nat (List Node) :=
  let (marked, cs) := unmark markup.toList
  match readEvents marked cs with
  | .error fault => .error (fault.position cs)
  | .ok events => .ok (Builder.build collapse events)

/-- The text shown to the user when markup cannot be read. -/
def malformedMessage (position : Nat) : String :=
  "malformed markup at byte " ++ toString position

end Stencil.Markup
