/-!
# UTF-8

Encoding of text and forgiving decoding of bytes.  Each maximal part of the bytes that begins like
a character and breaks off becomes one replacement character, and so does every byte that begins
no character.
-/

namespace Stencil.Text

/-- The bytes of a text. -/
def encode (cs : List Char) : List UInt8 :=
  cs.flatMap String.utf8EncodeChar

/-- The number of bytes of a text. -/
def byteLength : List Char → Nat
  | [] => 0
  | c :: cs => c.utf8Size + byteLength cs

/-- The replacement character. -/
def replacement : Char :=
  '\uFFFD'

/-- A character begun but not complete: `missing` bytes are missing, the next of them between
`low` and `high`, and `code` is the number that the bytes so far make up. -/
structure Partial where
  missing : Nat
  low : Nat
  high : Nat
  code : Nat
  deriving DecidableEq, Repr

/-- What a first byte stands for: a complete character or the beginning of one. -/
def firstByte (b : Nat) : Char ⊕ Partial :=
  if b < 0x80 then .inl (Char.ofNat b)
  else if b < 0xC2 then .inl replacement
  else if b < 0xE0 then .inr ⟨1, 0x80, 0xBF, b - 0xC0⟩
  else if b < 0xF0 then
    .inr ⟨2, if b = 0xE0 then 0xA0 else 0x80, if b = 0xED then 0x9F else 0xBF, b - 0xE0⟩
  else if b < 0xF5 then
    .inr ⟨3, if b = 0xF0 then 0x90 else 0x80, if b = 0xF4 then 0x8F else 0xBF, b - 0xF0⟩
  else .inl replacement

/-- Decode the bytes that follow a character begun, if there is one. -/
def decodeFrom : Option Partial → List UInt8 → List Char
  | none, [] => []
  | some _, [] => [replacement]
  | none, b :: bs =>
    match firstByte b.toNat with
    | .inl c => c :: decodeFrom none bs
    | .inr begun => decodeFrom (some begun) bs
  | some begun, b :: bs =>
    let n := b.toNat
    if begun.low ≤ n && n ≤ begun.high then
      let code := begun.code * 64 + (n - 0x80)
      if begun.missing ≤ 1 then Char.ofNat code :: decodeFrom none bs
      else decodeFrom (some ⟨begun.missing - 1, 0x80, 0xBF, code⟩) bs
    else
      replacement ::
        match firstByte n with
        | .inl c => c :: decodeFrom none bs
        | .inr begun => decodeFrom (some begun) bs

/-- Decode bytes, with replacement characters for what is not UTF-8. -/
def decodeLossy (bytes : List UInt8) : List Char :=
  decodeFrom none bytes

end Stencil.Text
