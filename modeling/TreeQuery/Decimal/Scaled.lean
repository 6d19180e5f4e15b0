import TreeQuery.Decimal.Dyadic

/-!
# Decimals of 96 bits

A scaled decimal is an integer of at most 96 bits with a sign, divided by a power of ten up to
`10 ^ 28`. Sums and products of doubles that came from short decimals are exact here, where binary
arithmetic would round them.

## Main definitions

* `Scaled` — the decimals
* `Scaled.ofFloat?`, `Scaled.toFloat` — between doubles and scaled decimals
* `Scaled.add?`, `Scaled.mul?` — exact sum and product, brought back to 96 bits
-/

namespace TreeQuery

/-- The number `± magnitude / 10 ^ scale`. -/
structure Scaled where
  negative : Bool
  magnitude : Nat
  scale : Nat
  deriving DecidableEq, Repr

namespace Scaled

/-- Magnitudes stay below this bound. -/
def magnitudeBound : Nat := Nat.pow 2 96

/-- The largest power of ten by which a magnitude is divided. -/
def maxScale : Nat := 28

/-- Zero, which has no sign and no scale. -/
def zero : Scaled := ⟨false, 0, 0⟩

/-- A quotient rounded to the nearest natural number, a half to the even one. -/
def divHalfEven (numerator denominator : Nat) : Nat :=
  let quotient := numerator / denominator
  match compare (2 * (numerator % denominator)) denominator with
  | .lt => quotient
  | .gt => quotient + 1
  | .eq => quotient + quotient % 2

/-! ### From doubles

A power of two is a power of ten divided by one of five, and the other way round. So the mantissa of
a double is multiplied or divided by fives, and the power of ten is shortened until the magnitude
has no more digits than a double vouches for. -/

/-- The number `magnitude * 5 ^ count * 10 ^ power` as a magnitude and a power of ten. Half of a
magnitude is five times a tenth of it: an even magnitude is halved, an odd one is multiplied where
there is room, and halved and rounded down where there is none. -/
def timesFives : (count : Nat) → (magnitude : Nat) → (power : Int) → Nat × Int
  | 0, magnitude, power => (magnitude, power)
  | count + 1, magnitude, power =>
    if magnitude % 2 = 0 then timesFives count (magnitude / 2) (power + 1)
    else if magnitude * 5 < magnitudeBound then timesFives count (magnitude * 5) power
    else timesFives count (magnitude / 2) (power + 1)

/-- The number `magnitude / 5 ^ count * 10 ^ power` as a magnitude and a power of ten. A fifth of a
magnitude is a tenth of its double: the magnitude is doubled where there is room, and divided and
rounded down where there is none, unless too much of the power would be left. -/
def overFives : (count : Nat) → (magnitude : Nat) → (power : Int) → Option (Nat × Int)
  | 0, magnitude, power => some (magnitude, power)
  | count + 1, magnitude, power =>
    if magnitude < Nat.pow 2 95 then overFives count (magnitude * 2) (power - 1)
    else if power * 2 > count + 1 then none
    else overFives count (magnitude / 5) power

/-- Multiply a power of ten into the magnitude while there is room. -/
def absorbPower : (power : Nat) → (magnitude : Nat) → Option Nat
  | 0, magnitude => some magnitude
  | power + 1, magnitude =>
    if magnitude * 10 < magnitudeBound then absorbPower power (magnitude * 10) else none

/-- Drop the last digit and round by it. -/
def dropDigit (magnitude : Nat) : Nat :=
  if magnitude % 10 ≥ 5 then magnitude / 10 + 1 else magnitude / 10

/-- Bring a scale down to the largest one by dropping digits; a magnitude that loses all its digits
is zero. -/
def limitScale : (scale : Nat) → (magnitude : Nat) → Nat × Nat
  | 0, magnitude => (magnitude, 0)
  | scale + 1, magnitude =>
    if scale + 1 ≤ maxScale then (magnitude, scale + 1)
    else if magnitude / 10 = 0 then (0, 0)
    else limitScale scale (dropDigit magnitude)

/-- Drop fraction digits while the magnitude has more than 52 bits. -/
def limitPrecision : (scale : Nat) → (magnitude : Nat) → Nat × Nat
  | 0, magnitude => (magnitude, 0)
  | scale + 1, magnitude =>
    if magnitude ≥ Nat.pow 2 52 then limitPrecision scale (dropDigit magnitude)
    else (magnitude, scale + 1)

/-- Drop fraction digits that are zero. -/
def dropZeros : (scale : Nat) → (magnitude : Nat) → Nat × Nat
  | 0, magnitude => (magnitude, 0)
  | scale + 1, magnitude =>
    if magnitude % 10 = 0 then dropZeros scale (magnitude / 10) else (magnitude, scale + 1)

/-- The decimal near a finite double, if there is one with 96 bits. -/
def ofDyadic? (d : Dyadic) : Option Scaled :=
  if d.mantissa = 0 then some ⟨d.negative, 0, 0⟩
  else do
    let (magnitude, power) := timesFives (-d.exponent).toNat d.mantissa d.exponent
    let (magnitude, power) ← overFives d.exponent.toNat magnitude power
    let magnitude ← absorbPower power.toNat magnitude
    let (magnitude, scale) := limitScale (-power).toNat magnitude
    let (magnitude, scale) := limitPrecision scale magnitude
    let (magnitude, scale) := dropZeros scale magnitude
    some ⟨d.negative, magnitude, scale⟩

/-- The decimal near a double, if there is one with 96 bits. -/
def ofFloat? (x : Float) : Option Scaled := do
  ofDyadic? (← Dyadic.ofFloat? x)

/-! ### To doubles -/

/-- A power of ten by repeated squaring in double arithmetic: `factor` times `base` to the `n`. -/
def powerBySquaring (base : Float) (n : Nat) (factor : Float) : Float :=
  let factor := if n % 2 = 1 then factor * base else factor
  if n / 2 = 0 then factor else powerBySquaring (base * base) (n / 2) factor
termination_by n

/-- The double that a decimal stands for: whole part and fraction are rounded apart, and their sum
is rounded once more to the decimal's scale. -/
def toFloat (d : Scaled) : Float :=
  let signed (x : Float) : Float := if d.negative then -x else x
  if d.scale = 0 then
    if d.magnitude = 0 then 0 else signed (Float.ofNat d.magnitude)
  else
    let unit := Nat.pow 10 d.scale
    let whole := Float.ofNat (d.magnitude / unit)
    let fraction := Float.ofNat (d.magnitude % unit) / Float.ofNat unit
    if fraction == 0 then signed whole
    else
      -- Rounding to the scale takes back what the two divisions lost.
      let power := powerBySquaring 10 d.scale 1
      signed (roundHalfAway ((whole + fraction) * power) / power)

/-! ### Sum and product -/

/-- Find how many digits to drop until the magnitude fits, giving up at scale zero. -/
def digitsToDrop (magnitude dropped : Nat) : (scale : Nat) → Option (Nat × Nat)
  | 0 => if magnitude / Nat.pow 10 dropped < magnitudeBound then some (dropped, 0) else none
  | scale + 1 =>
    if magnitude / Nat.pow 10 dropped < magnitudeBound then some (dropped, scale + 1)
    else digitsToDrop magnitude (dropped + 1) scale

/-- Bring a magnitude back to 96 bits and the largest scale, a half to the even neighbour. -/
def rescale? (magnitude scale : Nat) : Option (Nat × Nat) := do
  -- The quotient is a little less than the logarithm of two to the base ten, so this may be a digit
  -- short of what has to be dropped.
  let excess :=
    if magnitude ≥ magnitudeBound then ((Nat.log2 magnitude + 1 - 97) * 77) / 256 + 1 else 0
  if excess > scale then none
  let drop := max excess (scale - maxScale)
  let (drop, scale) ←
    if drop = 0 then some (0, scale) else digitsToDrop magnitude drop (scale - drop)
  let rounded := divHalfEven magnitude (Nat.pow 10 drop)
  if rounded < magnitudeBound then some (rounded, scale)
  else if scale = 0 then none
  else some (divHalfEven rounded 10, scale - 1)

/-- The exact sum, brought back to 96 bits. Adding a zero gives the other operand unchanged. -/
def add? (a b : Scaled) : Option Scaled :=
  if a.magnitude = 0 then some b
  else if b.magnitude = 0 then some a
  else do
    let scale := max a.scale b.scale
    let signed (d : Scaled) : Int :=
      let aligned : Int := d.magnitude * Nat.pow 10 (scale - d.scale)
      if d.negative then -aligned else aligned
    let sum := signed a + signed b
    let (magnitude, scale) ← rescale? sum.natAbs scale
    some ⟨sum < 0, magnitude, scale⟩

/-- The exact product, brought back to 96 bits. -/
def mul? (a b : Scaled) : Option Scaled :=
  if a.magnitude = 0 ∨ b.magnitude = 0 then some zero
  else
    let scale := a.scale + b.scale
    let product := a.magnitude * b.magnitude
    let negative := a.negative != b.negative
    -- A product of short magnitudes has at most twenty digits, so beyond scale 47 nothing is left.
    if a.magnitude < Nat.pow 2 32 ∧ b.magnitude < Nat.pow 2 32 then
      if scale > 47 then some zero
      else if scale > maxScale then
        let magnitude := divHalfEven product (Nat.pow 10 (scale - maxScale))
        some ⟨negative && magnitude ≠ 0, magnitude, maxScale⟩
      else some ⟨negative, product, scale⟩
    else do
      let (magnitude, scale) ← rescale? product scale
      some ⟨negative, magnitude, scale⟩

end Scaled

end TreeQuery
