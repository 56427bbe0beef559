/-!
# Double precision numbers in decimal

A decimal number is rounded to the nearest double precision number, a tie to the even mantissa,
and a double precision number is written with the fewest digits that read back as the same number;
of several such decimals the nearest is taken.  Both directions are exact arithmetic on natural
numbers.
-/

namespace Stencil

/-- A double precision number.  A finite one is `mantissa * 2 ^ exponent`, with a mantissa below
`2 ^ 53` that is at least `2 ^ 52` unless the exponent is the least one. -/
inductive Binary64 where
  | nan
  | infinite (negative : Bool)
  | finite (negative : Bool) (mantissa : Nat) (exponent : Int)
  deriving DecidableEq, Repr, Inhabited

namespace Binary64

/-- The least exponent. -/
def minExponent : Int :=
  -1074

/-- The greatest exponent. -/
def maxExponent : Int :=
  971

/-- The least mantissa of full precision, `2 ^ 52`. -/
def fullMantissa : Nat :=
  4503599627370496

/-- `n * base ^ e` as a fraction. -/
def fraction (base n : Nat) (e : Int) : Nat × Nat :=
  (n * base.pow e.toNat, base.pow (-e).toNat)

/-- The integer nearest to a fraction, the even one of two. -/
def nearest (num den : Nat) : Nat :=
  let quotient := num / den
  let twice := 2 * (num % den)
  if den < twice || (twice == den && quotient % 2 == 1) then quotient + 1 else quotient

/-- The number nearest to a fraction, given an exponent for its mantissa. -/
def roundAt (negative : Bool) (num den : Nat) (exponent : Int) : Binary64 :=
  let (up, down) := fraction 2 1 exponent
  let mantissa := nearest (num * down) (den * up)
  let (mantissa, exponent) :=
    if mantissa = 2 * fullMantissa then (fullMantissa, exponent + 1) else (mantissa, exponent)
  if maxExponent < exponent then .infinite negative else .finite negative mantissa exponent

/-- The number nearest to a fraction. -/
def round (negative : Bool) (num den : Nat) : Binary64 :=
  if num = 0 then .finite negative 0 minExponent
  else
    let guess : Int := (num.log2 : Int) - den.log2 - 52
    let (up, down) := fraction 2 1 guess
    let exponent := if num * down / (den * up) < fullMantissa then guess - 1 else guess
    roundAt negative num den (max minExponent exponent)

/-- The number nearest to `digits * 10 ^ scale`, for a decimal with `count` digits.  Scales far
outside the range of double precision are settled by the position of the first digit. -/
def ofDecimal (negative : Bool) (count digits : Nat) (scale : Int) : Binary64 :=
  if digits = 0 || (count : Int) + scale < -400 then .finite negative 0 minExponent
  else if 400 < (digits.log2 : Int) / 4 + scale then .infinite negative
  else
    let (num, den) := fraction 10 digits scale
    round negative num den

/-! ## Shortest decimals -/

/-- A multiple of a power of ten. -/
structure Decimal where
  digits : Nat
  scale : Int
  deriving DecidableEq, Repr, Inhabited

/-- A number with the bounds of the interval of numbers that round to it, as multiples of one
quarter of a power of two. -/
structure Interval where
  low : Nat
  middle : Nat
  high : Nat
  exponent : Int
  closed : Bool

/-- The interval of numbers that round to `mantissa * 2 ^ exponent`. -/
def interval (mantissa : Nat) (exponent : Int) : Interval :=
  { low := 4 * mantissa - if mantissa = fullMantissa && minExponent < exponent then 1 else 2
    middle := 4 * mantissa
    high := 4 * mantissa + 2
    exponent := exponent - 2
    closed := mantissa % 2 == 0 }

/-- The multiple of `10 ^ scale` in the interval that is nearest to its middle, if there is any. -/
def Interval.decimal? (i : Interval) (scale : Int) : Option Decimal :=
  let (up, down) := fraction 2 1 i.exponent
  let (tens, tenths) := fraction 10 1 scale
  let unit := tens * down
  let times (n : Nat) : Nat := n * up * tenths
  let inside (n : Nat) : Bool :=
    if i.closed then times i.low ≤ n && n ≤ times i.high else times i.low < n && n < times i.high
  let below := times i.middle / unit
  let above := below + 1
  let nearBelow := times i.middle - below * unit
  let nearAbove := above * unit - times i.middle
  match inside (below * unit) && 0 < below, inside (above * unit) with
  | true, true => some ⟨if nearBelow < nearAbove then below else above, scale⟩
  | true, false => some ⟨below, scale⟩
  | false, true => some ⟨above, scale⟩
  | false, false => none

/-- The first of the given scales, and those below it, at which the interval has a decimal. -/
def Interval.firstDecimal (i : Interval) : Int → Nat → Decimal
  | scale, 0 => (i.decimal? scale).getD ⟨0, 0⟩
  | scale, tries + 1 =>
    match i.decimal? scale with
    | some decimal => decimal
    | none => i.firstDecimal (scale - 1) tries

/-- The decimal with the fewest digits that rounds to `mantissa * 2 ^ exponent`.  A number below
`2 ^ bits` is below the power of ten at which the search starts, and seventeen digits are always
enough. -/
def shortest (mantissa : Nat) (exponent : Int) : Decimal :=
  let bits : Int := mantissa.log2 + 1 + exponent
  (interval mantissa exponent).firstDecimal (bits * 30103 / 100000 + 1) 20

/-- A decimal in positional notation, with at least one digit on either side of the point. -/
def Decimal.positional (decimal : Decimal) : String :=
  let digits := Nat.toDigits 10 decimal.digits
  if 0 ≤ decimal.scale then
    .ofList (digits ++ List.replicate decimal.scale.toNat '0' ++ ['.', '0'])
  else
    let places := (-decimal.scale).toNat
    let digits := List.replicate (places + 1 - digits.length) '0' ++ digits
    let whole := digits.length - places
    .ofList (digits.take whole ++ '.' :: digits.drop whole)

/-- The shortest decimal text that reads back as the number, never with an exponent. -/
def text : Binary64 → String
  | .nan => "NaN"
  | .infinite negative => (if negative then "-" else "") ++ "inf"
  | .finite negative mantissa exponent =>
    (if negative then "-" else "") ++
      if mantissa = 0 then "0.0" else (shortest mantissa exponent).positional

end Binary64

end Stencil
