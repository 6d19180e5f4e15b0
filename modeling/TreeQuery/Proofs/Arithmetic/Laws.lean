import TreeQuery.Proofs.Decimal.ReadBack
import TreeQuery.Proofs.Decimal.Scaled

/-!
# Laws of arithmetic

The order of the operands does not matter, and zero and one are neutral, for sum and product alike.
Doubles satisfy these laws, and so do the decimals that stand for them; and since a decimal is taken
only where the double can be had back from it, so do the operations that choose between the two.

## Main definitions

* `Operator.neutral` — one for the product, zero for the sum

## Main statements

* `Binary64.add_comm`, `Binary64.mul_comm` — doubles in either order
* `Binary64.add_zero`, `Binary64.mul_one` — neutral doubles
* `Operator.apply_comm`, `Operator.apply_neutral` — the same for operations on numbers
* `Operator.apply_laws` — both laws in one
-/

namespace TreeQuery

namespace Binary64

open Float.Model (UnpackedFloat)
open Float.Model.UnpackedFloat

variable {x y : Float}

/-! ### Doubles -/

theorem parts_add (x y : Float) : x + y = ofParts (add format (parts x) (parts y)) := rfl

theorem add_comm (x y : Float) : x + y = y + x := by
  have signs (s t : Sign) : (s == t) = (t == s) := by cases s <;> cases t <;> rfl
  have same : add format (parts x) (parts y) = add format (parts y) (parts x) := by
    cases parts x <;> cases parts y <;>
      simp only [Float.Model.UnpackedFloat.add, Int.min_comm, Int.add_comm]
    · next s t =>
      rw [signs s t]
      cases s <;> cases t <;> rfl
    · next s t => cases s <;> cases t <;> rfl
  rw [parts_add, same, parts_add]

theorem mul_comm (x y : Float) : x * y = y * x := by
  have signs (s t : Sign) : s * t = t * s := by cases s <;> cases t <;> rfl
  have same : mul format (parts x) (parts y) = mul format (parts y) (parts x) := by
    cases parts x <;> cases parts y <;>
      simp only [Float.Model.UnpackedFloat.mul, Nat.mul_comm, Int.add_comm, signs]
  rw [parts_mul, same, parts_mul]

/-- A number equals itself. -/
theorem beq_self (number : x.isNaN = false) : (x == x) = true := by
  have same : Float.Model.UnpackedFloat.beq (parts x) (parts x) = true := by
    rw [isNaN_eq] at number
    cases same : parts x with
    | notANumber =>
      rw [same] at number
      cases number
    | zero s => rfl
    | infinity s => cases s <;> rfl
    | finite s m e pos =>
      cases s <;> simp [Float.Model.UnpackedFloat.beq, Float.Model.UnpackedFloat.compare]
  exact same

/-- A sum with zero is the other operand, but that a negative zero loses its sign. -/
theorem add_zero (number : x.isNaN = false) : (x + 0 == x) = true := by
  have zero : parts 0 = .zero .positive := rfl
  cases same : parts x with
  | zero s =>
    have sum : parts (x + 0) = .zero .positive := by
      rw [parts_add, same, zero]
      cases s <;> exact unpack_packedZero
    have equal : Float.Model.UnpackedFloat.beq (parts (x + 0)) (parts x) = true := by
      rw [sum, same]
      rfl
    exact equal
  | notANumber | infinity s | finite s m e pos =>
    have sum : x + 0 = x := by
      have other : add format (parts x) (.zero .positive) = parts x := by
        rw [same]
        rfl
      rw [parts_add, zero, other, ofParts_parts]
    rw [sum]
    exact beq_self number

/-- A product with one is the other operand. -/
theorem mul_one (x : Float) : x * 1 = x := by
  have positive (s : Sign) : s * .positive = s := by cases s <;> rfl
  have one : parts 1 = .finite .positive (2 ^ 52) (-52) (by decide) := rfl
  have same : mul format (parts x) (parts 1) = parts x := by
    have whole := whole_parts x
    rw [one]
    cases same : parts x with
    | notANumber => rfl
    | zero s => exact congrArg UnpackedFloat.zero (positive s)
    | infinity s => exact congrArg UnpackedFloat.infinity (positive s)
    | finite s m e pos =>
      rw [same] at whole
      have canonical : Canonical m e := whole
      rw [mul, positive]
      exact roundWithAccuracy_exact canonical s 52
  rw [parts_mul, same, ofParts_parts]

end Binary64

/-! ### Numbers -/

namespace Scaled

variable {x : Float} {d : Scaled}

theorem recoverable?_zero : recoverable? 0 = some zero := by
  decide +kernel

theorem recoverable?_one : recoverable? 1 = some ⟨false, 1, 0⟩ := by
  decide +kernel

end Scaled

namespace Operator

open Binary64 (add_comm add_zero beq_self mul_comm mul_one)

theorem onFloats_comm (op : Operator) (a b : Float) : op.onFloats a b = op.onFloats b a := by
  cases op with
  | multiply => exact mul_comm a b
  | add => exact add_comm a b

/-- The double of the decimal result is the same in either order. -/
theorem onScaled?_comm (op : Operator) {x y : Scaled} (hx : x.WellFormed) (hy : y.WellFormed) :
    (op.onScaled? x y).map Scaled.toFloat = (op.onScaled? y x).map Scaled.toFloat := by
  cases op with
  | multiply => exact congrArg _ (Scaled.mul?_comm x y)
  | add => exact Scaled.add?_comm hx hy

theorem decimal?_eq (op : Operator) (a b : Float) :
    op.decimal? a b = (Scaled.recoverable? a).bind fun x =>
      (Scaled.recoverable? b).bind fun y => (op.onScaled? x y).map Scaled.toFloat := by
  cases found : Scaled.recoverable? a with
  | none => simp [decimal?, found]
  | some x =>
    cases found' : Scaled.recoverable? b with
    | none => simp [decimal?, found, found']
    | some y => cases given : op.onScaled? x y <;> simp [decimal?, found, found', given]

theorem decimal?_comm (op : Operator) (a b : Float) : op.decimal? a b = op.decimal? b a := by
  rw [decimal?_eq, decimal?_eq]
  cases found : Scaled.recoverable? a with
  | none => cases Scaled.recoverable? b <;> rfl
  | some x =>
    cases found' : Scaled.recoverable? b with
    | none => rfl
    | some y =>
      exact op.onScaled?_comm (Scaled.wellFormed_of_recoverable? found)
        (Scaled.wellFormed_of_recoverable? found')

/-- The operands may be exchanged. -/
theorem apply_comm (op : Operator) (a b : Float) : op.apply a b = op.apply b a := by
  rw [apply, apply, decimal?_comm, onFloats_comm]

/-- The operand that leaves the other one as it is. -/
def neutral : Operator → Float
  | multiply => 1
  | add => 0

theorem onFloats_neutral (op : Operator) {a : Float} (number : a.isNaN = false) :
    (op.onFloats a op.neutral == a) = true := by
  cases op with
  | multiply =>
    rw [onFloats, neutral, mul_one]
    exact beq_self number
  | add => exact add_zero number

/-- A decimal in good order goes through the operation with the neutral operand unchanged. -/
theorem decimal?_neutral (op : Operator) {a : Float} {x : Scaled}
    (found : Scaled.recoverable? a = some x) : op.decimal? a op.neutral = some x.toFloat := by
  rw [decimal?_eq, found]
  cases op with
  | multiply =>
    rw [neutral, Scaled.recoverable?_one]
    exact Scaled.toFloat_mul?_one (Scaled.wellFormed_of_recoverable? found)
  | add =>
    rw [neutral, Scaled.recoverable?_zero]
    exact Scaled.toFloat_add?_zero (Scaled.wellFormed_of_recoverable? found)

/-- The neutral operand leaves every number as it is: the decimal of a number is taken only when the
number can be had back from it, and without a decimal the operation is one on doubles. -/
theorem apply_neutral (op : Operator) {a : Float} (number : a.isNaN = false) :
    (op.apply a op.neutral == a) = true := by
  cases found : Scaled.recoverable? a with
  | none =>
    rw [apply, decimal?_eq, found]
    exact op.onFloats_neutral number
  | some x =>
    rw [apply, op.decimal?_neutral found]
    exact (Scaled.recoverable?_eq_some_iff.mp found).2

/-- Sum and product do not depend on the order of the operands, whatever these are; one is neutral
for the product and zero for the sum, on either side and for every number. -/
theorem apply_laws :
    (∀ (op : Operator) (a b : Float), (op.apply a b == op.apply b a) = true ∨
      (op.apply a b).isNaN = true ∧ (op.apply b a).isNaN = true) ∧
    ∀ a : Float, a.isNaN = false →
      (multiply.apply a 1 == a) = true ∧ (multiply.apply 1 a == a) = true ∧
      (add.apply a 0 == a) = true ∧ (add.apply 0 a == a) = true := by
  refine ⟨fun op a b => ?_, fun a number => ?_⟩
  · rw [op.apply_comm b a]
    cases nan : (op.apply a b).isNaN with
    | false => exact .inl (beq_self nan)
    | true => exact .inr ⟨rfl, rfl⟩
  · have product : (multiply.apply a 1 == a) = true := multiply.apply_neutral number
    have sum : (add.apply a 0 == a) = true := add.apply_neutral number
    exact ⟨product, by rwa [apply_comm], sum, by rwa [apply_comm]⟩

/-- A number with more digits than decimals have is left as it is too. -/
theorem apply_laws_long : (1e-300 / 3 : Float).isNaN = false ∧
    (multiply.apply (1e-300 / 3) 1 == 1e-300 / 3) = true ∧
    (add.apply 0 (1e-300 / 3) == 1e-300 / 3) = true := by
  have number : (1e-300 / 3 : Float).isNaN = false := by decide +kernel
  obtain ⟨product, -, -, sum⟩ := apply_laws.2 (1e-300 / 3) number
  exact ⟨number, product, sum⟩

end Operator

end TreeQuery
