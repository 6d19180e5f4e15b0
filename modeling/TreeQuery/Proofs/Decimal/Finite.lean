import TreeQuery.Proofs.Decimal.Nearest

/-!
# Finite results

Only the largest exponent makes a double infinite. A quotient stays below it if the divisor is at
least two, and the powers of ten up to the largest one that is a double stay below it as well.

## Main statements

* `Binary64.isFinite_ofParts` — what is put into a word with an exponent that is not too large
* `Binary64.isFinite_div` — quotients
* `Binary64.isFinite_power` — powers of ten
-/

namespace TreeQuery

namespace Binary64

open Float.Model (Format UnpackedFloat totalExponent)
open Float.Model.UnpackedFloat

variable {s : Sign} {m : Nat} {e : Int} {x y : Float}

theorem isFinite_eq (x : Float) : x.isFinite = (parts x).isFinite := rfl

/-- A finite double is a zero, or its parts are canonical. -/
theorem cases_of_isFinite (finite : x.isFinite = true) :
    (∃ s, parts x = .zero s) ∨ ∃ s m e, ∃ h : Canonical m e, parts x = .finite s m e h.pos := by
  have whole := whole_parts x
  rw [isFinite_eq] at finite
  cases same : parts x with
  | notANumber =>
    rw [same] at finite
    cases finite
  | infinity s =>
    rw [same] at finite
    cases finite
  | zero s => exact .inl ⟨s, rfl⟩
  | finite s m e pos =>
    rw [same] at whole
    exact .inr ⟨s, m, e, whole, rfl⟩

theorem isFinite_neg (x : Float) : (-x).isFinite = x.isFinite := by
  rw [isFinite_eq, isFinite_eq, parts_neg]
  cases parts x <;> rfl

theorem isFinite_of_isInf (number : x.isNaN = false) (bounded : x.isInf = false) :
    x.isFinite = true := by
  have number' : (parts x).isNaN = false := number
  have bounded' : (parts x).isInf = false := bounded
  rw [isFinite_eq]
  cases same : parts x with
  | notANumber =>
    rw [same] at number'
    cases number'
  | infinity s =>
    rw [same] at bounded'
    cases bounded'
  | zero s => rfl
  | finite s m e pos => rfl

theorem isFinite_of_isNearest {r : ℚ} (near : IsNearest x r) : x.isFinite = true := by
  obtain ⟨d, finite, -⟩ := near
  rw [isFinite_eq]
  rcases Dyadic.parts_of_ofFloat? finite with ⟨s, same, -⟩ | ⟨s, m, e, pos, same, -⟩
  · rw [same]
    rfl
  · rw [same]
    rfl

/-- Only the largest exponent makes infinities and NaN. -/
theorem isFinite_ofComponents (s : Sign) {e : BitVec 11} {m : BitVec 52} (inner : e ≠ -1#11) :
    (ofComponents s e m).isFinite = true := by
  rw [ofComponents, if_neg inner]
  split
  · split <;> rfl
  · rfl

/-- Packing makes no infinity of what has an exponent that is not too large. -/
theorem isFinite_ofParts (pos : 0 < m) (bound : e ≤ 971) :
    (ofParts (.finite s m e pos)).isFinite = true := by
  have packed : (unpack format (pack format (.finite s m e pos))).isFinite = true := by
    have inRange : ¬ 2 ^ 11 ≤ (e + format.exponentBias + (52 : Nat)).toNat + 1 := by
      rw [bias_eq]
      omega
    simp only [pack, if_neg inRange]
    split
    · rw [unpack_packComponents]
      exact isFinite_ofComponents s (exponent_ne_largest (Nat.lt_of_not_le inRange))
    · rw [unpack_packComponents]
      exact isFinite_ofComponents s (by decide)
  exact packed

/-- Rounding gives an exponent that the size asks for, or the next one. -/
theorem isFinite_roundWithAccuracy (s : Sign) (m : Nat) {e : Int} (accuracy : Accuracy)
    (exponent : e ≤ 970) (size : totalExponent m e ≤ 1023) :
    (ofParts (roundWithAccuracy format s m e accuracy)).isFinite = true := by
  obtain ⟨-, rounds⟩ := roundWithAccuracy_eq s m e accuracy rfl rfl
  have small : max e (format.targetExponent (totalExponent m e)) ≤ 970 := by
    rw [Format.targetExponent, mantissaBits_eq, lowest_eq]
    omega
  rw [rounds]
  split
  · exact congrArg UnpackedFloat.isFinite unpack_packedZero
  · split
    · exact isFinite_ofParts _ (by omega)
    · exact isFinite_ofParts _ (by omega)

/-! ### Products and quotients -/

/-- A product of finite doubles may be infinite, but it is a number. -/
theorem isNaN_mul_of_isFinite (left : x.isFinite = true) (right : y.isFinite = true) :
    (x * y).isNaN = false := by
  have number : (mul format (parts x) (parts y)).isNaN = false := by
    rcases cases_of_isFinite left with ⟨s, zero⟩ | ⟨s, m, e, h, same⟩
    · rcases cases_of_isFinite right with ⟨s', zero'⟩ | ⟨s', m', e', h', same'⟩
      · rw [zero, zero']
        rfl
      · rw [zero, same']
        rfl
    · rcases cases_of_isFinite right with ⟨s', zero'⟩ | ⟨s', m', e', h', same'⟩
      · rw [same, zero']
        rfl
      · rw [same, same']
        exact isNaN_roundWithAccuracy ..
  exact isNaN_ofParts number

/-- A quotient has as many bits as the numerator has more than the denominator, or one more. -/
theorem log2_div_le {n : Nat} (some : 0 < m / n) (pos : 0 < n) :
    (m / n).log2 + n.log2 ≤ m.log2 := by
  have below : m / n * n ≤ m := Nat.div_mul_le_self m n
  have nonzero : m ≠ 0 := by
    rintro rfl
    simp at some
  rw [Nat.le_log2 nonzero, Nat.pow_add]
  calc 2 ^ (m / n).log2 * 2 ^ n.log2 ≤ m / n * n :=
        Nat.mul_le_mul (Nat.log2_self_le (Nat.ne_of_gt some)) (Nat.log2_self_le (Nat.ne_of_gt pos))
    _ ≤ m := below

/-- A quotient is finite if the divisor is at least two. -/
theorem isFinite_div {M : Nat} {E : Int} {pos : 0 < M} (finite : x.isFinite = true)
    (divisor : parts y = .finite .positive M E pos) (large : 2 ≤ totalExponent M E) :
    (x / y).isFinite = true := by
  have quotient : x / y = ofParts (div format (parts x) (.finite .positive M E pos)) := by
    rw [← divisor]
    rfl
  rw [quotient]
  rcases cases_of_isFinite finite with ⟨s, zero⟩ | ⟨s, m, e, canonical, same⟩
  · rw [zero]
    exact congrArg UnpackedFloat.isFinite unpack_packedZero
  · rw [same]
    have greatest := canonical.greatest
    have bits : m.log2 < 53 := (Nat.log2_lt (Nat.ne_of_gt canonical.pos)).mpr canonical.lt
    obtain ⟨target, target_eq⟩ : ∃ target, target = min (e - E)
        (format.targetExponent (totalExponent m e - totalExponent M E)) := ⟨_, rfl⟩
    -- The dividend has an exponent up to 971, the divisor takes away what rounding may add.
    rw [div, divCore]
    simp only [← target_eq, Nat.shiftLeft_eq]
    have target_le : target ≤ 969 := by
      rw [target_eq, Format.targetExponent, mantissaBits_eq, lowest_eq]
      simp only [totalExponent] at large ⊢
      omega
    apply isFinite_roundWithAccuracy
    · omega
    · rcases Nat.eq_zero_or_pos (m * 2 ^ (e - E - target).toNat / M) with none | some
      · rw [none, totalExponent]
        simp
        omega
      · have logs := log2_div_le some pos
        rw [log2_mul_two_pow canonical.pos] at logs
        simp only [totalExponent] at large ⊢
        omega

/-! ### Powers of ten -/

/-- Whether this is a finite number above zero with at least two bits in front of the point. -/
def isLarge : UnpackedFloat → Bool
  | .finite .positive m e _ => 2 ≤ totalExponent m e
  | _ => false

theorem exists_of_isLarge {u : UnpackedFloat} (large : isLarge u) :
    ∃ m e pos, u = .finite .positive m e pos ∧ 2 ≤ totalExponent m e := by
  unfold isLarge at large
  split at large
  · next m e pos => exact ⟨m, e, pos, rfl, of_decide_eq_true large⟩
  · cases large

theorem isLarge_listedPower :
    ∀ k : Fin 22, isLarge (parts (Float.ofScientific 1 false (k + 1))) := by
  decide +kernel

/-- The largest power of ten that is less than the largest double. -/
theorem log2_greatestPower :
    (10 ^ 308).log2 = 53 + 970 ∧ roundedTo 970 (10 ^ 308) < 2 ^ 53 := by
  decide +kernel

/-- The bits of a large power of ten, and that it is rounded to no more than the largest double. -/
theorem log2_power {k : Nat} (many : 22 < k) (le : k ≤ 308) :
    ∃ j, (10 ^ k).log2 = 53 + j ∧ (j ≤ 969 ∨ j = 970 ∧ roundedTo j (10 ^ k) < 2 ^ 53) := by
  have nonzero : 10 ^ k ≠ 0 := Nat.ne_of_gt (Nat.pow_pos (by decide))
  rcases Nat.lt_or_eq_of_le le with lt | greatest
  · have long : 2 ^ 53 ≤ 10 ^ k :=
      Nat.le_trans (by decide) (Nat.pow_le_pow_right (by decide) many)
    have below : 10 ^ k < 2 ^ 1023 :=
      Nat.lt_of_le_of_lt (Nat.pow_le_pow_right (by decide) (Nat.le_of_lt_succ lt))
        (by decide +kernel)
    have lower := (Nat.le_log2 nonzero).mpr long
    have upper := (Nat.log2_lt nonzero).mpr below
    exact ⟨(10 ^ k).log2 - 53, by omega, .inl (by omega)⟩
  · -- Rounded up to one bit more, this one would be infinite.
    rw [greatest]
    exact ⟨970, log2_greatestPower.1, .inr ⟨rfl, log2_greatestPower.2⟩⟩

/-- Powers of ten are finite, as long as they stay below the largest double, and none but the first
is below two. -/
theorem isLarge_power {k : Nat} (pos : 0 < k) (le : k ≤ 308) :
    isLarge (parts (Float.ofScientific 1 false k)) := by
  rcases Nat.lt_or_ge 22 k with many | few
  · obtain ⟨j, log, bound⟩ := log2_power many le
    obtain ⟨M, E, canonical, nonneg, rounds, -, -⟩ := roundWithAccuracy_natural log bound
    have scientific := ofScientific_natural Nat.one_pos (Nat.le_trans le (by decide : 308 ≤ 2048))
    rw [Nat.one_mul, rounds] at scientific
    have unfolded : Float.ofScientific 1 false k = ofParts (ofScientific format 1 k) :=
      dif_neg fun small => Nat.not_le_of_lt many small.2
    have power : parts (Float.ofScientific 1 false k) = .finite .positive M E canonical.pos := by
      rw [unfolded, scientific]
      exact unpack_pack_finite canonical .positive
    rw [power, isLarge, decide_eq_true_eq, totalExponent]
    have full := canonical.full.resolve_right (by omega)
    have bits := (Nat.le_log2 (Nat.ne_of_gt canonical.pos)).mpr full
    omega
  · obtain ⟨j, rfl⟩ : ∃ j, k = j + 1 := ⟨k - 1, by omega⟩
    exact isLarge_listedPower ⟨j, by omega⟩

theorem isFinite_power {k : Nat} (le : k ≤ 308) :
    (Float.ofScientific 1 false k).isFinite = true := by
  rcases Nat.eq_zero_or_pos k with rfl | pos
  · decide +kernel
  · obtain ⟨m, e, pos', same, -⟩ := exists_of_isLarge (isLarge_power pos le)
    rw [isFinite_eq, same]
    rfl

end Binary64

end TreeQuery
