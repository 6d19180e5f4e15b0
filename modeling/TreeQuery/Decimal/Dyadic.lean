/-!
# The exact value of a double

Every finite double is an integer multiple of a power of two. This module reads off that multiple
and the power, so that decimal questions about a double can be answered in exact arithmetic on
natural numbers.

## Main definitions

* `Dyadic`, `Dyadic.ofFloat?` — the exact value of a finite double
* `Dyadic.numerator`, `Dyadic.denominator` — its magnitude as a fraction
* `roundHalfAway` — the nearest integer to a double, a half going away from zero
-/

namespace TreeQuery

/-- The number `± mantissa * 2 ^ exponent`. -/
structure Dyadic where
  negative : Bool
  mantissa : Nat
  exponent : Int
  deriving DecidableEq, Repr

namespace Dyadic

/-- The exact value of a finite double. Zeros keep their sign. -/
def ofFloat? (x : Float) : Option Dyadic :=
  match x.toModel.unpack with
  | .finite sign mantissa exponent _ => some ⟨sign == .negative, mantissa, exponent⟩
  | .zero sign => some ⟨sign == .negative, 0, 0⟩
  | .infinity _ => none
  | .notANumber => none

/-- The magnitude is `numerator / denominator`. -/
def numerator (d : Dyadic) : Nat := d.mantissa * Nat.pow 2 d.exponent.toNat

/-- The magnitude is `numerator / denominator`. -/
def denominator (d : Dyadic) : Nat := Nat.pow 2 (-d.exponent).toNat

end Dyadic

/-- The nearest integer to a double, as a double. A half goes away from zero; infinities, NaN and
numbers too large for a fractional part are given back. -/
def roundHalfAway (x : Float) : Float :=
  match Dyadic.ofFloat? x with
  | some d =>
    if d.exponent < 0 then
      let magnitude := Float.ofNat ((2 * d.numerator + d.denominator) / (2 * d.denominator))
      if d.negative then -magnitude else magnitude
    else x
  | none => x

end TreeQuery
