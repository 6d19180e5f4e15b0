import TreeQuery.Decimal.Shortest

/-!
# Writing numbers

A layout holds what a format decides about the text of a number: which of two equally near digits is
taken, when the power of ten is written out, and whether an integer keeps a fraction of zero. The
digits themselves are the shortest ones that read back.

## Main definitions

* `Layout`, `Layout.write` — layouts, and the text of a finite double under one
-/

namespace TreeQuery

/-- What a format decides about the text of a finite number. -/
structure Layout where
  /-- Which of two equally near last digits is taken. -/
  tie : Tie
  /-- Whether numbers whose leading digit has this power of ten are written without an exponent. -/
  positional : Int → Bool
  /-- What stands after the digits of an integer that is written without an exponent. -/
  afterInteger : String

namespace Layout

/-- The digits of a decimal without an exponent. -/
def writePositional (layout : Layout) (d : Decimal) : String :=
  let digits := Nat.toDigits 10 d.significand
  if 0 ≤ d.exponent then
    String.ofList (digits ++ List.replicate d.exponent.toNat '0') ++ layout.afterInteger
  else
    let places := (-d.exponent).toNat
    let whole := digits.length - places
    if 0 < whole then String.ofList (digits.take whole ++ '.' :: digits.drop whole)
    else
      String.ofList ('0' :: '.' :: (List.replicate (places - digits.length) '0' ++ digits))

/-- The digits of a decimal, a point after the first of several, and the power of ten of the first
with its sign. -/
def writeScientific (d : Decimal) (power : Int) : String :=
  let digits := Nat.toDigits 10 d.significand
  let mantissa := digits.take 1 ++ (if digits.length > 1 then '.' :: digits.drop 1 else [])
  String.ofList mantissa ++ (if power < 0 then "e-" else "e+") ++ toString power.natAbs

/-- The text of a decimal without a sign. -/
def writeDecimal (layout : Layout) (d : Decimal) : String :=
  let power := d.exponent + (Nat.toDigits 10 d.significand).length - 1
  if d.significand = 0 ∨ layout.positional power then layout.writePositional d
  else writeScientific d power

/-- The text of a finite double; a zero keeps its sign. -/
def writeFinite (layout : Layout) (x : Float) (d : Dyadic) : String :=
  (if d.negative then "-" else "") ++ layout.writeDecimal (.shortest layout.tie x.abs d)

end Layout

end TreeQuery
