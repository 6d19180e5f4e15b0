import TreeQuery.Proofs.Arithmetic.Laws
import TreeQuery.Proofs.Decimal.Rescaling

/-!
# How accurate arithmetic is

Where both operands stand for decimals, a sum is the sum of the decimals but for one part in
`2 ^ 48`: nothing is lost by cancelling, since the sum of the decimals is exact before it is rounded,
and where it is too long for a decimal the operands have the same sign. The same holds of a product
that is not too small. A small product is rounded to 28 digits after the point, like every decimal,
and without a word: below half a unit of the last digit it is zero.

## Main definitions

* `Operator.exact` — the exact result
* `Operator.Accurate` — one part in `2 ^ 48`

## Main statements

* `Operator.apply_accurate` — how far a result is from the exact one
* `Operator.not_forall_accurate` — the product of small numbers
-/

namespace TreeQuery

open Binary64

namespace Scaled

variable {a b : Float} {x y : Scaled}

theorem abs_value (d : Scaled) : |d.value| = d.magnitude / 10 ^ d.scale := by
  rw [value, abs_signed, abs_of_nonneg (by positivity)]

/-- The decimal that a double stands for is near to the double. -/
theorem approximates_of_recoverable? (found : recoverable? a = some x) :
    Approximates 15 a x.value := by
  obtain ⟨-, equal⟩ := recoverable?_eq_some_iff.mp found
  have good := wellFormed_of_recoverable? found
  obtain ⟨v, hasValue, close⟩ := approximates_toFloat good.lt good.le
  exact ⟨v, hasValue.of_beq equal, close⟩

/-- Decimals have a moderate size, unless they are zero. -/
theorem bounds_of_wellFormed (good : x.WellFormed) (some : x.magnitude ≠ 0) :
    1 / 10 ^ 28 ≤ |x.value| ∧ |x.value| ≤ 2 ^ 96 := by
  obtain ⟨one_le, le_power⟩ := power_bounds good.le
  have one_le' : (1 : ℚ) ≤ x.magnitude := by exact_mod_cast Nat.pos_of_ne_zero some
  have lt : (x.magnitude : ℚ) < 2 ^ 96 := by exact_mod_cast good.lt
  rw [abs_value]
  constructor
  · rw [div_le_div_iff₀ (by positivity) (by positivity)]
    linarith
  · rw [div_le_iff₀ (by positivity)]
    linarith

theorem moderate (good : x.WellFormed) (some : x.magnitude ≠ 0) : Moderate x.value := by
  obtain ⟨lower, upper⟩ := bounds_of_wellFormed good some
  exact ⟨lower.trans' (by norm_num), upper.trans (by norm_num)⟩

theorem sign_cases (same : x.negative = y.negative) :
    0 ≤ x.value ∧ 0 ≤ y.value ∨ x.value ≤ 0 ∧ y.value ≤ 0 := by
  have nonneg (d : Scaled) : (0 : ℚ) ≤ d.magnitude / 10 ^ d.scale := by positivity
  rw [value, value, ← same]
  cases x.negative with
  | false => exact .inl ⟨nonneg x, nonneg y⟩
  | true => exact .inr ⟨neg_nonpos.mpr (nonneg x), neg_nonpos.mpr (nonneg y)⟩

end Scaled

namespace Operator

open Scaled (recoverable?)

variable {a b : Float} {x y : Scaled}

/-- A relative error of one part in `2 ^ 48` at most, and no error in zero. -/
def Accurate (v r : ℚ) : Prop := |v - r| ≤ 1 / 2 ^ 48 * |r| ∧ (v = 0 ↔ r = 0)

theorem accurate_of_close {k : ℕ} {v r : ℚ} (close : Close k v r) (few : k ≤ 31) : Accurate v r :=
  ⟨close.error_le_of_few few, close.eq_zero_iff⟩

/-- The exact result. -/
def exact : Operator → ℚ → ℚ → ℚ
  | multiply, r, u => r * u
  | add, r, u => r + u

theorem apply_eq_of_found (op : Operator) (found : recoverable? a = some x)
    (found' : recoverable? b = some y) :
    op.apply a b = ((op.onScaled? x y).map Scaled.toFloat).getD (op.onFloats a b) := by
  rw [apply, decimal?_eq, found, found']
  rfl

/-- A sum is that of the decimals but for a few roundings. -/
theorem approximates_add (found : recoverable? a = some x) (found' : recoverable? b = some y) :
    Approximates 16 (add.apply a b) (x.value + y.value) := by
  have good := Scaled.wellFormed_of_recoverable? found
  have good' := Scaled.wellFormed_of_recoverable? found'
  rw [add.apply_eq_of_found found found']
  cases sum : Scaled.add? x y with
  | some d =>
    obtain ⟨lt, le, close⟩ := Scaled.close_of_add? good good' sum
    obtain ⟨v, hasValue, close'⟩ := Scaled.approximates_toFloat lt le
    have result : (add.onScaled? x y).map Scaled.toFloat = some d.toFloat := congrArg _ sum
    rw [result]
    exact ⟨v, hasValue, close'.trans close⟩
  | none =>
    obtain ⟨nonzero, nonzero', sign⟩ := Scaled.of_add?_none good good' sum
    have result : (add.onScaled? x y).map Scaled.toFloat = none := congrArg _ sum
    rw [result]
    have left := Scaled.approximates_of_recoverable? found
    have right := Scaled.approximates_of_recoverable? found'
    have signs := Scaled.sign_cases sign
    obtain ⟨lower, upper⟩ := Scaled.bounds_of_wellFormed good nonzero
    obtain ⟨lower', upper'⟩ := Scaled.bounds_of_wellFormed good' nonzero'
    have size : |x.value + y.value| = |x.value| + |y.value| :=
      (abs_add_eq_add_abs_iff _ _).mpr signs
    have moderate : Moderate (x.value + y.value) := by
      constructor
      · rw [size]
        linarith
      · rw [size]
        linarith
    exact left.add right (by norm_num) signs moderate

/-- A product is what the product of the decimals is brought to, or it is that product but for a
few roundings, and large. -/
theorem product_cases (found : recoverable? a = some x) (found' : recoverable? b = some y) :
    (∃ d, Scaled.Delivers d (x.value * y.value) ∧ multiply.apply a b = d.toFloat) ∨
      2 ^ 95 ≤ |x.value * y.value| ∧ Approximates 31 (multiply.apply a b) (x.value * y.value) := by
  have good := Scaled.wellFormed_of_recoverable? found
  have good' := Scaled.wellFormed_of_recoverable? found'
  rw [multiply.apply_eq_of_found found found']
  cases product : Scaled.mul? x y with
  | some d =>
    have result : (multiply.onScaled? x y).map Scaled.toFloat = some d.toFloat :=
      congrArg _ product
    rw [result]
    exact .inl ⟨d, Scaled.delivers_of_mul? product, rfl⟩
  | none =>
    have result : (multiply.onScaled? x y).map Scaled.toFloat = none := congrArg _ product
    have large := Scaled.le_of_mul?_none product
    have left := Scaled.approximates_of_recoverable? found
    have right := Scaled.approximates_of_recoverable? found'
    have nonzero : x.value * y.value ≠ 0 := abs_pos.mp (large.trans_lt' (by norm_num))
    obtain ⟨some, some'⟩ := mul_ne_zero_iff.mp nonzero
    have some := mt Scaled.value_of_magnitude_zero some
    have some' := mt Scaled.value_of_magnitude_zero some'
    have upper := (Scaled.bounds_of_wellFormed good some).2
    have upper' := (Scaled.bounds_of_wellFormed good' some').2
    have moderate : Moderate (x.value * y.value) := by
      refine ⟨large.trans' (by norm_num), ?_⟩
      calc |x.value * y.value| = |x.value| * |y.value| := abs_mul ..
        _ ≤ 2 ^ 96 * 2 ^ 96 := mul_le_mul upper upper' (abs_nonneg _) (by norm_num)
        _ ≤ 10 ^ 60 := by norm_num
    rw [result]
    exact .inr ⟨large, left.mul right (by norm_num) (Scaled.moderate good some)
      (Scaled.moderate good' some') moderate⟩

/-- A product that is not too small is that of the decimals but for a few roundings. -/
theorem approximates_multiply (found : recoverable? a = some x) (found' : recoverable? b = some y)
    (large : x.value * y.value = 0 ∨ 1 / 10 ^ 13 ≤ |x.value * y.value|) :
    Approximates 31 (multiply.apply a b) (x.value * y.value) := by
  rcases product_cases found found' with ⟨d, ⟨lt, le, accurate, zero⟩, same⟩ | ⟨-, approximates⟩
  · obtain ⟨v, hasValue, close⟩ := Scaled.approximates_toFloat lt le
    rw [same]
    refine ⟨v, hasValue, close.trans (k := 16) ?_⟩
    rcases accurate with rounding | error
    · exact rounding.mono (by norm_num)
    · rcases large with none | large
      · have zero' : d.magnitude = 0 := by
          rw [zero, none, abs_zero]
          positivity
        exact .of_eq (by rw [none, Scaled.value_of_magnitude_zero zero'])
      · apply Close.of_error_le
        have taken := Close.kept_pow_le_one_sub (k := 16) (by norm_num)
        calc |d.value - x.value * y.value| ≤ 11 / 20 / 10 ^ 28 := error
          _ ≤ (1 - Close.kept ^ 16) * (1 / 10 ^ 13) := by
            push_cast at taken
            linarith
          _ ≤ (1 - Close.kept ^ 16) * |x.value * y.value| :=
            mul_le_mul_of_nonneg_left large (sub_nonneg.mpr (Close.kept_pow_le_one 16))
  · exact approximates

/-- The value of a product, whatever its size: besides the roundings there may be one unit of the
last of 28 digits after the point, and half of such a unit is lost altogether. -/
theorem exists_hasValue_multiply (found : recoverable? a = some x)
    (found' : recoverable? b = some y) :
    ∃ v, HasValue (multiply.apply a b) v ∧
      |v - x.value * y.value| ≤ 1 / 2 ^ 48 * |x.value * y.value| + 1 / 10 ^ 28 ∧
      (v = 0 ↔ |x.value * y.value| ≤ 1 / 2 / 10 ^ 28) := by
  rcases product_cases found found' with ⟨d, ⟨lt, le, accurate, zero⟩, same⟩ | ⟨large, approximates⟩
  · obtain ⟨v, hasValue, close⟩ := Scaled.approximates_toFloat lt le
    rw [same]
    refine ⟨v, hasValue, ?_, ?_⟩
    · rcases accurate with rounding | error
      · exact ((close.trans rounding).error_le_of_few (by norm_num)).trans (by linarith)
      · have first := close.error_le (by norm_num)
        have size := abs_sub_abs_le_abs_sub d.value (x.value * y.value)
        have whole := abs_sub_le v d.value (x.value * y.value)
        have error' : |d.value - x.value * y.value| ≤ 11 / 20 / 10 ^ 28 := error
        push_cast at first
        linarith [abs_nonneg (x.value * y.value)]
    · rw [close.eq_zero_iff, Scaled.value_eq_zero_iff]
      exact zero
  · obtain ⟨v, hasValue, close⟩ := approximates
    refine ⟨v, hasValue, (close.error_le_of_few le_rfl).trans (by linarith), ?_⟩
    rw [close.eq_zero_iff]
    have nonzero : x.value * y.value ≠ 0 := abs_pos.mp (large.trans_lt' (by norm_num))
    exact iff_of_false nonzero (not_le.mpr (large.trans_lt' (by norm_num)))

/-- Where both operands stand for decimals, the result is a number. A sum is accurate, whatever the
size and the signs of the operands, and so is a product that is zero or at least `10 ^ -13`. A
smaller product may be off by a unit of the last of 28 digits after the point as well, and it is zero
just up to half of such a unit. -/
theorem apply_accurate (op : Operator) (found : recoverable? a = some x)
    (found' : recoverable? b = some y) :
    ∃ v, HasValue (op.apply a b) v ∧
      (op = add ∨ op.exact x.value y.value = 0 ∨ 1 / 10 ^ 13 ≤ |op.exact x.value y.value| →
        Accurate v (op.exact x.value y.value)) ∧
      (op = multiply →
        |v - op.exact x.value y.value| ≤ 1 / 2 ^ 48 * |op.exact x.value y.value| + 1 / 10 ^ 28 ∧
          (v = 0 ↔ |op.exact x.value y.value| ≤ 1 / 2 / 10 ^ 28)) := by
  cases op with
  | add =>
    obtain ⟨v, hasValue, close⟩ := approximates_add found found'
    exact ⟨v, hasValue, fun _ => accurate_of_close close (by norm_num), nofun⟩
  | multiply =>
    obtain ⟨v, hasValue, error, zero⟩ := exists_hasValue_multiply found found'
    refine ⟨v, hasValue, fun large => ?_, fun _ => ⟨error, zero⟩⟩
    obtain ⟨w, hasValue', close⟩ := approximates_multiply found found' (large.resolve_left nofun)
    obtain rfl := hasValue.unique hasValue'
    exact accurate_of_close close le_rfl

/-- A small number that stands for a decimal. -/
theorem recoverable?_small : recoverable? 1e-15 = some ⟨false, 1, 15⟩ := by
  decide +kernel

theorem exact_small : multiply.exact (Scaled.value ⟨false, 1, 15⟩) (Scaled.value ⟨false, 1, 15⟩) =
    1 / 10 ^ 30 := by
  norm_num [exact, Scaled.value, Scaled.signed]

/-- A product far below the last digit is zero. -/
theorem apply_accurate_small : recoverable? 1e-15 = some ⟨false, 1, 15⟩ ∧
    HasValue (multiply.apply 1e-15 1e-15) 0 := by
  obtain ⟨v, hasValue, -, small⟩ :=
    apply_accurate multiply recoverable?_small recoverable?_small
  have none : v = 0 := by
    rw [(small rfl).2, exact_small]
    norm_num
  exact ⟨recoverable?_small, none ▸ hasValue⟩

/-- Not every product of numbers that stand for decimals is accurate, though decimals and their
products have the size of doubles with all their bits: a product may be zero where binary arithmetic
gives a double of that size. -/
theorem not_forall_accurate :
    (¬ ∀ (op : Operator) (a b : Float) (x y : Scaled), recoverable? a = some x →
      recoverable? b = some y →
      op.exact x.value y.value = 0 ∨ Normal (op.exact x.value y.value) →
      ∃ v, HasValue (op.apply a b) v ∧ Accurate v (op.exact x.value y.value)) ∧
    ¬ ∀ (a b : Float) (x y : Scaled), recoverable? a = some x → recoverable? b = some y →
      x.value ≠ 0 → y.value ≠ 0 → (∃ w, HasValue (a * b) w ∧ Normal w) →
      ¬ HasValue (multiply.apply a b) 0 := by
  have nothing : HasValue (multiply.apply 1e-15 1e-15) 0 :=
    ⟨⟨false, 0, 0⟩, by decide +kernel, by simp [Dyadic.value_eq]⟩
  have operand := Scaled.approximates_of_recoverable? recoverable?_small
  have value : Scaled.value ⟨false, 1, 15⟩ = 1 / 10 ^ 15 := by
    norm_num [Scaled.value, Scaled.signed]
  have moderate : Moderate (1 / 10 ^ 30) := .of_bounds (by norm_num) (by norm_num)
  constructor
  · intro all
    obtain ⟨v, hasValue, -, zero⟩ := all multiply _ _ _ _ recoverable?_small recoverable?_small
      (.inr (exact_small ▸ moderate.normal (.refl 0 _) (by norm_num)))
    rw [exact_small] at zero
    exact absurd (zero.mp (hasValue.unique nothing)) (by norm_num)
  · intro all
    have moderate' : Moderate (1 / 10 ^ 15) := .of_bounds (by norm_num) (by norm_num)
    have product : (1 / 10 ^ 15 * (1 / 10 ^ 15) : ℚ) = 1 / 10 ^ 30 := by norm_num
    rw [value] at operand
    obtain ⟨w, hasValue, close⟩ := operand.mul operand (by norm_num) moderate' moderate'
      (product ▸ moderate)
    rw [product] at close
    have nonzero : Scaled.value ⟨false, 1, 15⟩ ≠ 0 := by
      rw [value]
      norm_num
    exact all _ _ _ _ recoverable?_small recoverable?_small nonzero nonzero
      ⟨w, hasValue, moderate.normal close (by norm_num)⟩ nothing

end Operator

end TreeQuery
