import TreeQuery.Decimal.Basic
import TreeQuery.Decimal.Dyadic

/-!
# The shortest decimal of a double

A double is written with the fewest significant digits from which it can be read back, and among
those with the digits nearest to it. On the grid of decimals with a given number of digits only the
two neighbours of the double need a look: if any decimal of the grid reads back, one of them does.

## Main definitions

* `Tie` — which neighbour wins when both are equally near
* `Decimal.shortest` — the shortest decimal that reads back
-/

namespace TreeQuery

/-- Which of two equally near neighbours is taken. -/
inductive Tie where
  /-- The larger one. -/
  | up
  /-- The one whose last digit is even. -/
  | toEven
  deriving DecidableEq, Repr

/-- Whether the upper neighbour is taken when the lower one is even or not. -/
def Tie.takesUpper (tie : Tie) (lower : Nat) : Bool :=
  match tie with
  | up => true
  | toEven => lower % 2 = 1

namespace Decimal

/-- The number of decimal digits before the point of `numerator / denominator`; zero or less when
that many zeros follow the point. -/
def pointPlace (numerator denominator : Nat) : Int :=
  let place : Int := (Nat.toDigits 10 numerator).length - (Nat.toDigits 10 denominator).length
  let unit := denominator * Nat.pow 10 place.toNat
  if numerator * Nat.pow 10 (-place).toNat ≥ unit then place + 1 else place

/-- The one of two neighbours that is accepted, or the nearer one when both are. -/
def pick? (accepts : Decimal → Bool) (below above : Decimal) (aboveNearer : Bool) :
    Option Decimal :=
  match accepts below, accepts above with
  | true, true => some (cond aboveNearer above below)
  | true, false => some below
  | false, true => some above
  | false, false => none

theorem accepts_of_pick? {accepts : Decimal → Bool} {below above d : Decimal} {aboveNearer : Bool}
    (h : pick? accepts below above aboveNearer = some d) : accepts d = true := by
  unfold pick? at h
  cases aboveNearer <;> split at h <;> simp_all

/-- Whether the upper neighbour of `scaled / unit` is the nearer one. -/
def aboveNearer (tie : Tie) (scaled unit : Nat) : Bool :=
  match compare (2 * (scaled % unit)) unit with
  | .lt => false
  | .gt => true
  | .eq => tie.takesUpper (scaled / unit)

/-- The decimal with `digits` significant digits that reads back as `x` and is nearest to it, if the
grid of such decimals has one. The exact value of `x` is `numerator / denominator`. -/
def onGrid? (tie : Tie) (x : Float) (numerator denominator digits : Nat) : Option Decimal :=
  let exponent := pointPlace numerator denominator - digits
  let scaled := numerator * Nat.pow 10 (-exponent).toNat
  let unit := denominator * Nat.pow 10 exponent.toNat
  pick? (fun d => d.toFloat = x) (trim ⟨scaled / unit, exponent⟩ digits)
    (trim ⟨scaled / unit + 1, exponent⟩ digits) (aboveNearer tie scaled unit)

/-- The exact value of a dyadic magnitude as a decimal. -/
def exact (d : Dyadic) : Decimal :=
  if 0 ≤ d.exponent then ⟨d.numerator, 0⟩
  else ⟨d.mantissa * Nat.pow 5 (-d.exponent).toNat, d.exponent⟩

/-- The shortest decimal that reads back as the positive finite double `x`. Seventeen digits always
do; the exact value stands in should none of the grids have an answer. -/
def shortest (tie : Tie) (x : Float) (d : Dyadic) : Decimal :=
  if d.mantissa = 0 then ⟨0, 0⟩
  else
    ((List.range' 1 17).findSome? (onGrid? tie x d.numerator d.denominator)).getD (exact d)

/-- Whatever a grid offers reads back. -/
theorem toFloat_of_onGrid? {tie : Tie} {x : Float} {numerator denominator digits : Nat}
    {d : Decimal} (h : onGrid? tie x numerator denominator digits = some d) : d.toFloat = x := by
  unfold onGrid? at h
  exact of_decide_eq_true (accepts_of_pick? h)

end Decimal

end TreeQuery
