/-!
# Decimal numerals

A decimal is a natural number times a power of ten. Reading one as a double rounds it once, to the
nearest double, a half going to the even neighbour.

## Main definitions

* `Decimal`, `Decimal.toFloat` — decimals and the doubles nearest to them
* `Decimal.ofNumeral?` — a decimal from its digits
-/

namespace TreeQuery

/-- The number `significand * 10 ^ exponent`. -/
structure Decimal where
  significand : Nat
  exponent : Int
  deriving DecidableEq, Repr

namespace Decimal

/-- The double nearest to a decimal, infinity when it is too large. -/
def toFloat (d : Decimal) : Float :=
  if 0 ≤ d.exponent then Float.ofScientific (d.significand * Nat.pow 10 d.exponent.toNat) false 0
  else Float.ofScientific d.significand true (-d.exponent).toNat

/-- The same number without zeros at the end of the significand; at most `limit` are taken away. -/
def trim (d : Decimal) : (limit : Nat) → Decimal
  | 0 => d
  | limit + 1 =>
    if d.significand ≠ 0 ∧ d.significand % 10 = 0 then
      trim ⟨d.significand / 10, d.exponent + 1⟩ limit
    else d

/-- Read digits, perhaps followed by a point and further digits. -/
def ofNumeral? (cs : List Char) : Option Decimal :=
  let whole := cs.takeWhile Char.isDigit
  if whole.isEmpty then none
  else
    match cs.dropWhile Char.isDigit with
    | [] => some ⟨Nat.ofDigitChars 10 whole 0, 0⟩
    | point :: fraction =>
      if point = '.' ∧ !fraction.isEmpty ∧ fraction.all Char.isDigit then
        some ⟨Nat.ofDigitChars 10 (whole ++ fraction) 0, -fraction.length⟩
      else none

end Decimal

end TreeQuery
