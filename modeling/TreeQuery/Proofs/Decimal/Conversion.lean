import TreeQuery.Proofs.Decimal.Roundoff
import TreeQuery.Proofs.Decimal.Scaled

/-!
# Decimals as doubles

The double of a decimal is its value but for some roundings. Whole part and fraction are rounded
apart, and their sum is multiplied by a power of ten, brought to an integer and divided again: each
of these steps adds to the count, and going to the integer doubles it.

## Main definitions

* `Scaled.value` — the decimal itself

## Main statements

* `Scaled.approximates_power` — powers of ten by repeated squaring
* `Scaled.approximates_roundHalfAway` — the integer next to a double
* `Scaled.approximates_toFloat` — the double of a decimal
-/

namespace TreeQuery

open Binary64
open Float.Model (UnpackedFloat)
open Float.Model.UnpackedFloat

variable {x y : Float} {v r : ℚ} {k m n : ℕ}

/-! ### Zero -/

theorem hasValue_zero : HasValue 0 0 :=
  hasValue_iff.mpr (.inl ⟨⟨.positive, rfl⟩, rfl⟩)

/-- A finite double equals zero if its value is zero. -/
theorem HasValue.beq_zero_iff (hasValue : HasValue x v) : (x == 0) = true ↔ v = 0 := by
  have same : (x == 0) = Float.Model.UnpackedFloat.beq (parts x) (.zero .positive) := rfl
  rw [same]
  rcases hasValue_iff.mp hasValue with ⟨⟨s, zero⟩, rfl⟩ | ⟨s, m, e, h, finite, rfl⟩
  · rw [zero]
    exact ⟨fun _ => rfl, fun _ => rfl⟩
  · rw [finite]
    refine ⟨fun equal => ?_, fun none => absurd none (value_ne_zero h s)⟩
    cases s <;> cases equal

theorem HasValue.zero_div (hx : HasValue x 0) (hy : HasValue y r) (some : r ≠ 0) :
    HasValue (x / y) 0 := by
  have numerator : ∃ s, parts x = .zero s := by
    rcases hasValue_iff.mp hx with ⟨zero, -⟩ | ⟨s, m, e, h, -, zero⟩
    · exact zero
    · exact absurd zero.symm (value_ne_zero h s)
  obtain ⟨s, zero⟩ := numerator
  rcases hasValue_iff.mp hy with ⟨-, none⟩ | ⟨s', m, e, h, finite, -⟩
  · exact absurd none some
  · rw [parts_div, zero, finite]
    exact hasValue_iff.mpr (.inl ⟨⟨s / s', unpack_packedZero⟩, rfl⟩)

/-- Equal doubles have the same value. -/
theorem HasValue.of_beq (hasValue : HasValue x v) (equal : (x == y) = true) : HasValue y v := by
  have equal : Float.Model.UnpackedFloat.beq (parts x) (parts y) = true := equal
  rcases hasValue_iff.mp hasValue with ⟨⟨s, zero⟩, rfl⟩ | ⟨s, m, e, h, finite, rfl⟩
  · rw [zero] at equal
    cases same : parts y with
    | zero s' => exact hasValue_iff.mpr (.inl ⟨⟨s', same⟩, rfl⟩)
    | notANumber => rw [same] at equal; cases equal
    | infinity s' | finite s' => rw [same] at equal; cases s' <;> cases equal
  · rw [finite] at equal
    cases same : parts y with
    | zero s' => rw [same] at equal; cases s <;> cases equal
    | notANumber => rw [same] at equal; cases s <;> cases equal
    | infinity s' => rw [same] at equal; cases s <;> cases s' <;> cases equal
    | finite s' m' e' pos =>
      rw [same] at equal
      have both : s = s' ∧ m = m' ∧ e = e' := by
        cases s <;> cases s' <;>
          simp_all [Float.Model.UnpackedFloat.beq, Float.Model.UnpackedFloat.compare]
      obtain ⟨rfl, rfl, rfl⟩ := both
      exact hasValue_iff.mpr (.inr ⟨s, m, e, h, same, rfl⟩)

/-! ### Powers of ten -/

/-- Repeated squaring with at most so many steps. -/
def squaringSteps : (steps : ℕ) → (base : Float) → (n : ℕ) → (factor : Float) → Float
  | 0, _, _, factor => factor
  | steps + 1, base, n, factor =>
    let factor := if n % 2 = 1 then factor * base else factor
    if n / 2 = 0 then factor else squaringSteps steps (base * base) (n / 2) factor

theorem powerBySquaring_eq (steps : ℕ) (base factor : Float) (lt : n < 2 ^ steps)
    (pos : 0 < n) : Scaled.powerBySquaring base n factor = squaringSteps steps base n factor := by
  induction steps generalizing base n factor with
  | zero => omega
  | succ steps ih =>
    rw [Scaled.powerBySquaring, squaringSteps]
    split
    · rfl
    · exact ih _ _ (by omega) (by omega)

/-- Whether this is a power of ten but for one rounding. -/
def isNearPowerOfTen (k : ℕ) : UnpackedFloat → Bool
  | .finite .positive m e _ =>
    let given := m * 2 ^ e.toNat
    let power := 10 ^ k * 2 ^ (-e).toNat
    2 ^ 53 * (given - power) ≤ power ∧ 2 ^ 53 * (power - given) ≤ power
  | _ => false

theorem isNearPowerOfTen_steps : ∀ k : Fin 28,
    isNearPowerOfTen (k + 1) (parts (squaringSteps 5 10 (k + 1) 1)) := by
  decide +kernel

theorem approximates_of_isNearPowerOfTen (near : isNearPowerOfTen k (parts x)) :
    Approximates 1 x (10 ^ k) := by
  unfold isNearPowerOfTen at near
  split at near
  · next m e pos same =>
    obtain ⟨above, below⟩ := of_decide_eq_true near
    have finite : Dyadic.ofFloat? x = some ⟨false, m, e⟩ := by
      simp only [Dyadic.ofFloat?, same]
      rfl
    refine ⟨_, ⟨_, finite, rfl⟩, Close.of_rounding ?_⟩
    have pos : (0 : ℚ) < (2 ^ (-e).toNat : ℕ) := by exact_mod_cast Nat.two_pow_pos _
    have value : (⟨false, m, e⟩ : Dyadic).value =
        (m * 2 ^ e.toNat : ℕ) / (2 ^ (-e).toNat : ℕ) := rfl
    -- The bounds speak of both numbers times the denominator.
    generalize m * 2 ^ e.toNat = given at above below value
    generalize 2 ^ (-e).toNat = denominator at above below value pos
    rw [Nat.mul_sub, Nat.sub_le_iff_le_add] at above below
    have above' : (2 ^ 53 * given : ℚ) ≤
        10 ^ k * denominator + 2 ^ 53 * (10 ^ k * denominator) := by exact_mod_cast above
    have below' : (2 ^ 53 * (10 ^ k * denominator) : ℚ) ≤
        10 ^ k * denominator + 2 ^ 53 * given := by exact_mod_cast below
    have error : (given / denominator - 10 ^ k : ℚ) =
        (given - 10 ^ k * denominator) / denominator := by
      field_simp
    have power : |(10 ^ k : ℚ)| = 10 ^ k := abs_of_pos (by positivity)
    rw [value, error, abs_div, abs_of_pos pos, div_le_iff₀ pos, power, abs_le]
    constructor <;> linarith
  · cases near

/-- A power of ten by repeated squaring is rounded once at most. -/
theorem Scaled.approximates_power {s : ℕ} (pos : 0 < s) (le : s ≤ maxScale) :
    Approximates 1 (powerBySquaring 10 s 1) (10 ^ s) := by
  have le : s ≤ 28 := le
  obtain ⟨k, rfl⟩ : ∃ k, s = k + 1 := ⟨s - 1, by omega⟩
  rw [powerBySquaring_eq 5 10 1 (by omega) pos]
  exact approximates_of_isNearPowerOfTen (isNearPowerOfTen_steps ⟨k, by omega⟩)

/-! ### The nearest integer -/

/-- A double above zero and its parts. -/
theorem HasValue.exists_of_pos (hasValue : HasValue y v) (pos : 0 < v) :
    ∃ m e, Canonical m e ∧ Dyadic.ofFloat? y = some ⟨false, m, e⟩ ∧ v = m * 2 ^ e := by
  rcases hasValue_iff.mp hasValue with ⟨-, rfl⟩ | ⟨s, m, e, h, same, rfl⟩
  · exact absurd pos (lt_irrefl 0)
  · cases s with
    | positive =>
      refine ⟨m, e, h, ?_, one_mul _⟩
      simp only [Dyadic.ofFloat?, same]
      rfl
    | negative =>
      have nonneg : (0 : ℚ) ≤ m * 2 ^ e := by positivity
      rw [unit, neg_one_mul] at pos
      linarith

/-- Half of a unit is added, and what is below a unit is dropped. -/
theorem abs_halves_sub_le (m : ℕ) (pos : 0 < n) :
    |(((2 * m + n) / (2 * n) : ℕ) - m / n : ℚ)| ≤ 1 / 2 := by
  have pos' : (0 : ℚ) < 2 * n := by exact_mod_cast Nat.mul_pos two_pos pos
  have division := Nat.div_add_mod (2 * m + n) (2 * n)
  have remainder := Nat.mod_lt (2 * m + n) (Nat.mul_pos two_pos pos)
  generalize (2 * m + n) / (2 * n) = q at division
  generalize (2 * m + n) % (2 * n) = rest at division remainder
  have division' : (2 * n * q + rest : ℚ) = 2 * m + n := by exact_mod_cast division
  have remainder' : (rest : ℚ) < 2 * n := by exact_mod_cast remainder
  have nonneg : (0 : ℚ) ≤ rest := Nat.cast_nonneg rest
  have distance : (q - m / n : ℚ) = (n - rest) / (2 * n) := by
    have nonzero : (n : ℚ) ≠ 0 := by exact_mod_cast Nat.ne_of_gt pos
    field_simp
    linarith
  rw [distance, abs_div, abs_of_pos pos', div_le_iff₀ pos', abs_le]
  constructor <;> linarith

/-- A double above zero is brought to the nearest integer, or it is left as it is. -/
theorem hasValue_roundHalfAway (hasValue : HasValue y v) (pos : 0 < v) :
    ∃ w, HasValue (roundHalfAway y) w ∧ (w = v ∨ ∃ n : ℕ, w = n ∧ |n - v| ≤ 1 / 2) := by
  obtain ⟨m, e, h, finite, rfl⟩ := hasValue.exists_of_pos pos
  rcases lt_or_ge e 0 with fraction | whole
  · obtain ⟨k, rfl⟩ : ∃ k : ℕ, e = -(k + 1 : ℕ) := ⟨(-e).toNat - 1, by omega⟩
    have numerator : (⟨false, m, -(k + 1 : ℕ)⟩ : Dyadic).numerator = m := Nat.mul_one m
    have denominator : (⟨false, m, -(k + 1 : ℕ)⟩ : Dyadic).denominator = 2 ^ (k + 1) := by
      rw [Dyadic.denominator, Int.neg_neg, Int.toNat_natCast]
      rfl
    have rounded : roundHalfAway y =
        Float.ofNat ((2 * m + 2 ^ (k + 1)) / (2 * 2 ^ (k + 1))) := by
      simp only [roundHalfAway, finite, if_pos fraction, numerator, denominator]
      rfl
    have value : (m * 2 ^ (-(k + 1 : ℕ) : ℤ) : ℚ) = m / (2 ^ (k + 1) : ℕ) := by
      rw [zpow_neg, zpow_natCast, div_eq_mul_inv]
      push_cast
      rfl
    have some : 2 ≤ 2 ^ (k + 1) := by
      rw [Nat.pow_succ]
      exact Nat.le_mul_of_pos_left 2 (Nat.two_pow_pos k)
    have short : (2 * m + 2 ^ (k + 1)) / (2 * 2 ^ (k + 1)) < 2 ^ 53 := by
      have bits := h.lt
      rw [Nat.div_lt_iff_lt_mul (by omega)]
      omega
    rw [value, rounded]
    exact ⟨_, hasValue_ofNat short, .inr ⟨_, rfl, abs_halves_sub_le m (by omega)⟩⟩
  · have whole' : ¬ e < 0 := Int.not_lt.mpr whole
    have same : roundHalfAway y = y := by
      simp only [roundHalfAway, finite, if_neg whole']
    exact ⟨_, same.symm ▸ hasValue, .inl rfl⟩

/-- Going to the nearest integer doubles the count. -/
theorem approximates_roundHalfAway (approximates : Approximates k y m) (pos : 0 < m)
    (few : k ≤ 1000) : Approximates (2 * k + 1) (roundHalfAway y) m := by
  obtain ⟨v, hasValue, close⟩ := approximates
  obtain ⟨w, hasValue', same | ⟨n, integer, near⟩⟩ :=
    hasValue_roundHalfAway hasValue (close.pos_iff.mpr (by exact_mod_cast pos))
  · exact ⟨w, hasValue', same ▸ close.mono (by omega)⟩
  · exact ⟨w, hasValue', integer ▸ Close.nearest (m := m) (n := n) close near few⟩

/-! ### The double of a decimal -/

namespace Scaled

variable {d : Scaled} {s f : ℕ}

/-- A number with or without a sign in front. -/
def signed (negative : Bool) (r : ℚ) : ℚ := if negative then -r else r

/-- The decimal itself. -/
def value (d : Scaled) : ℚ := signed d.negative (d.magnitude / 10 ^ d.scale)

theorem abs_signed (negative : Bool) (r : ℚ) : |signed negative r| = |r| := by
  cases negative with
  | false => rfl
  | true => exact abs_neg r

theorem signed_zero (negative : Bool) : signed negative 0 = 0 := by
  cases negative with
  | false => rfl
  | true => exact neg_zero

theorem power_bounds (le : s ≤ maxScale) : (1 : ℚ) ≤ 10 ^ s ∧ (10 : ℚ) ^ s ≤ 10 ^ 28 :=
  ⟨one_le_pow₀ (by norm_num), pow_le_pow_right₀ (by norm_num) le⟩

theorem bound_small : magnitudeBound < 2 ^ 1023 := by
  decide +kernel

theorem power_small (le : s ≤ maxScale) : 10 ^ s < 2 ^ 1023 :=
  (Nat.pow_le_pow_right (by decide) le).trans_lt (by decide +kernel)

/-- A fraction is a quotient of two natural numbers, each rounded. -/
theorem approximates_fraction (pos : 0 < f) (lt : f < 10 ^ s) (le : s ≤ maxScale) :
    Approximates 3 (Float.ofNat f / Float.ofNat (Nat.pow 10 s)) (f / 10 ^ s) := by
  obtain ⟨one_le, le_power⟩ := power_bounds le
  have one_le' : (1 : ℚ) ≤ f := by exact_mod_cast pos
  have lt' : (f : ℚ) < 10 ^ s := by exact_mod_cast lt
  have small := power_small le
  have numerator := exists_hasValue_ofNat (small.trans' (by exact_mod_cast lt))
  have denominator := exists_hasValue_ofNat small
  push_cast at denominator
  refine Approximates.div (j := 1) (k := 1) numerator denominator (by norm_num) ?_ ?_ ?_
  · exact .of_bounds (one_le'.trans' (by norm_num)) (by linarith)
  · exact .of_bounds (one_le.trans' (by norm_num)) (by linarith)
  · refine .of_bounds ?_ ?_
    · rw [div_le_div_iff₀ (by norm_num) (by linarith)]
      linarith
    · rw [div_le_iff₀ (by linarith)]
      linarith

theorem hasValue_fraction_zero (none : m % 10 ^ s = 0) (le : s ≤ maxScale) :
    HasValue (Float.ofNat (m % Nat.pow 10 s) / Float.ofNat (Nat.pow 10 s)) 0 := by
  have none' : m % Nat.pow 10 s = 0 := none
  have numerator : HasValue (Float.ofNat 0) 0 := hasValue_ofNat (by decide)
  obtain ⟨v, denominator, close⟩ := exists_hasValue_ofNat (power_small le)
  have nonzero : v ≠ 0 := by
    rw [Ne, close.eq_zero_iff]
    push_cast
    positivity
  rw [none']
  exact numerator.zero_div denominator nonzero

/-- A double and a number, with or without a sign in front of both. -/
theorem approximates_signed (approximates : Approximates k x r) (negative : Bool) :
    Approximates k (if negative then -x else x) (signed negative r) := by
  cases negative with
  | false => exact approximates
  | true => exact approximates.neg

/-- Whole part and fraction are put together, and the sum is brought to the decimal's scale. -/
theorem approximates_rounded {whole fraction : Float} {w f : ℚ} (pos : 0 < m)
    (lt : m < magnitudeBound) (pos' : 0 < s) (le : s ≤ maxScale) (sum : w + f = m / 10 ^ s)
    (nonneg : 0 ≤ w) (nonneg' : 0 ≤ f) (hw : Approximates 1 whole w)
    (hf : Approximates 3 fraction f) :
    Approximates 15 (roundHalfAway ((whole + fraction) * powerBySquaring 10 s 1) /
      powerBySquaring 10 s 1) (m / 10 ^ s) := by
  obtain ⟨one_le, le_power⟩ := power_bounds le
  have one_le' : (1 : ℚ) ≤ m := by exact_mod_cast pos
  have lt' : (m : ℚ) < 2 ^ 96 := by exact_mod_cast lt
  have power := approximates_power pos' le
  have moderate : Moderate (10 ^ s) :=
    .of_bounds (one_le.trans' (by norm_num)) (le_power.trans (by norm_num))
  have moderate' : Moderate (m : ℚ) :=
    .of_bounds (one_le'.trans' (by norm_num)) (lt'.le.trans (by norm_num))
  have quotient : Moderate (m / 10 ^ s : ℚ) := by
    refine .of_bounds ?_ ?_
    · rw [div_le_div_iff₀ (by norm_num) (by linarith)]
      linarith
    · rw [div_le_iff₀ (by linarith)]
      linarith
  have added : Approximates 4 (whole + fraction) (m / 10 ^ s) := by
    rw [← sum] at quotient ⊢
    exact (hw.mono (by norm_num)).add hf (by norm_num) (.inl ⟨nonneg, nonneg'⟩) quotient
  have product : (m / 10 ^ s * 10 ^ s : ℚ) = m := div_mul_cancel₀ _ (by linarith)
  have scaled : Approximates 6 ((whole + fraction) * powerBySquaring 10 s 1) m := by
    have multiplied := added.mul power (by norm_num) quotient moderate (product.symm ▸ moderate')
    rwa [product] at multiplied
  have rounded := approximates_roundHalfAway scaled pos (by norm_num)
  exact rounded.div power (by norm_num) moderate' moderate quotient

/-- The double of a decimal is its value but for 15 roundings. -/
theorem approximates_toFloat (lt : d.magnitude < magnitudeBound) (le : d.scale ≤ maxScale) :
    Approximates 15 d.toFloat d.value := by
  obtain ⟨negative, m, s⟩ := d
  rw [value, toFloat]
  simp only
  split
  · next integer =>
    subst integer
    rw [pow_zero, div_one]
    split
    · next zero =>
      rw [zero, Nat.cast_zero, signed_zero]
      exact ⟨0, hasValue_zero, .refl _ _⟩
    · have whole : Approximates 1 (Float.ofNat m) m := exists_hasValue_ofNat (lt.trans bound_small)
      exact approximates_signed (whole.mono (by norm_num)) negative
  · next some =>
    have positive : 0 < 10 ^ s := Nat.pow_pos (by decide)
    have whole : Approximates 1 (Float.ofNat (m / 10 ^ s)) (m / 10 ^ s : ℕ) :=
      exists_hasValue_ofNat ((Nat.div_le_self m _).trans_lt (lt.trans bound_small))
    have sum : ((m / 10 ^ s : ℕ) + (m % 10 ^ s : ℕ) / 10 ^ s : ℚ) = m / 10 ^ s := by
      have parts : (10 ^ s * (m / 10 ^ s : ℕ) + (m % 10 ^ s : ℕ) : ℚ) = m := by
        exact_mod_cast Nat.div_add_mod m (10 ^ s)
      rw [← parts]
      field_simp
    rcases Nat.eq_zero_or_pos (m % 10 ^ s) with none | rest
    · -- Without a fraction the whole part is all.
      have fraction : (Float.ofNat (m % Nat.pow 10 s) / Float.ofNat (Nat.pow 10 s) == 0) = true :=
        (hasValue_fraction_zero none le).beq_zero_iff.mpr rfl
      rw [none, Nat.cast_zero, zero_div, Rat.add_zero] at sum
      rw [if_pos fraction, ← sum]
      exact approximates_signed (whole.mono (by norm_num)) negative
    · obtain ⟨v, hasValue, close⟩ := approximates_fraction rest (Nat.mod_lt m positive) le
      have nonzero : v ≠ 0 := by
        rw [Ne, close.eq_zero_iff]
        have rest' : (0 : ℚ) < (m % 10 ^ s : ℕ) := by exact_mod_cast rest
        positivity
      have fraction :
          ¬ (Float.ofNat (m % Nat.pow 10 s) / Float.ofNat (Nat.pow 10 s) == 0) = true :=
        fun zero => nonzero (hasValue.beq_zero_iff.mp zero)
      rw [if_neg fraction]
      have pos : 0 < m := Nat.pos_of_ne_zero fun zero => by simp [zero] at rest
      exact approximates_signed (approximates_rounded pos lt (Nat.pos_of_ne_zero some) le sum
        (by positivity) (by positivity) whole ⟨v, hasValue, close⟩) negative

end Scaled

end TreeQuery
