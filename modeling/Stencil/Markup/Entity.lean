/-!
# Character references

`&lt;`, `&gt;`, `&amp;`, `&apos;`, `&quot;` and numeric references stand for one character each.  A
text in which any reference is unfinished or unknown is left as it is written, and so are all
other references in it.
-/

namespace Stencil.Markup

/-- The value of a digit in bases up to sixteen. -/
def digitValue? (c : Char) : Option Nat :=
  if '0' ≤ c ∧ c ≤ '9' then some (c.toNat - '0'.toNat)
  else if 'a' ≤ c ∧ c ≤ 'f' then some (c.toNat - 'a'.toNat + 10)
  else if 'A' ≤ c ∧ c ≤ 'F' then some (c.toNat - 'A'.toNat + 10)
  else none

/-- The number that digits of the given base continue. -/
def numberFrom? (base : Nat) (n : Nat) : List Char → Option Nat
  | [] => some n
  | c :: cs => do
    let digit ← digitValue? c
    if digit < base then numberFrom? base (n * base + digit) cs else none

/-- The number that a nonempty list of digits of the given base makes up. -/
def number? (base : Nat) (digits : List Char) : Option Nat :=
  if digits.isEmpty then none else numberFrom? base 0 digits

/-- The character with the given number, zero excluded. -/
def charOfNumber? (n : Nat) : Option Char :=
  if n ≠ 0 ∧ n.isValidChar then some (Char.ofNat n) else none

/-- The character that a reference names, given what stands between `&` and `;`. -/
def referenced? : List Char → Option Char
  | '#' :: 'x' :: digits => number? 16 digits >>= charOfNumber?
  | '#' :: digits => number? 10 digits >>= charOfNumber?
  | ['l', 't'] => some '<'
  | ['g', 't'] => some '>'
  | ['a', 'm', 'p'] => some '&'
  | ['a', 'p', 'o', 's'] => some '\''
  | ['q', 'u', 'o', 't'] => some '"'
  | _ => none

/-- Decode every reference of a text, or none.  The first argument holds the name read so far,
last character first, of a reference that has begun. -/
def decodeReferences? : Option (List Char) → List Char → Option (List Char)
  | none, [] => some []
  | some _, [] => none
  | none, '&' :: cs => decodeReferences? (some []) cs
  | none, c :: cs => (decodeReferences? none cs).map (c :: ·)
  | some _, '&' :: _ => none
  | some name, ';' :: cs => do
    let c ← referenced? name.reverse
    (decodeReferences? none cs).map (c :: ·)
  | some name, c :: cs => decodeReferences? (some (c :: name)) cs

/-- A text with its references decoded, or as it is written if one of them cannot be. -/
def unescape (cs : List Char) : List Char :=
  (decodeReferences? none cs).getD cs

end Stencil.Markup
