import Stencil.Template

/-!
# Characters of a template

The characters of a template, piece by piece.  Proofs about the text of a template go over lists of
pieces and of characters, and `toList_text` leads to them from the string that is written.
-/

namespace Stencil

namespace Template

/-- The characters of the pieces, one piece after another. -/
def chars (pieces : List Piece) : List Char :=
  pieces.flatMap fun piece => piece.text.toList

@[simp]
theorem chars_nil : chars [] = [] :=
  rfl

@[simp]
theorem chars_markup (text : String) (pieces : List Piece) :
    chars (.markup text :: pieces) = text.toList ++ chars pieces :=
  rfl

@[simp]
theorem chars_action (instruction : Action) (pieces : List Piece) :
    chars (.action instruction :: pieces) = instruction.text.toList ++ chars pieces :=
  rfl

@[simp]
theorem chars_append (before after : List Piece) :
    chars (before ++ after) = chars before ++ chars after :=
  List.flatMap_append

/-- The text of a template consists of the characters of its pieces. -/
theorem toList_text (pieces : List Piece) : (text pieces).toList = chars pieces := by
  rw [text, String.toList_join, List.flatMap_map]
  rfl

/-- Escaping a text escapes each of its characters. -/
@[simp]
theorem toList_escapedText (s : String) :
    (escapedText s).toList = s.toList.flatMap escapedTextChar :=
  String.toList_ofList

/-- Escaping a value escapes each of its characters. -/
@[simp]
theorem toList_escapedValue (s : String) :
    (escapedValue s).toList = s.toList.flatMap escapedValueChar :=
  String.toList_ofList

end Template

end Stencil
