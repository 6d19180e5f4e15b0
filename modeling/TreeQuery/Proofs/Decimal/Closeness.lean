import Mathlib

/-!
# Numbers that are close to each other

A number is close to another one if it is the other one times a factor near one. How near is counted
in roundings: rounding to 53 bits changes a number by one part in `2 ^ 53` at most. The counts of
factors are added where numbers are multiplied or divided, and where one number is close to a second
that is close to a third. A sum of positive numbers is as close as its parts are.

## Main definitions

* `Close k v r` — at most `k` roundings are between the two numbers

## Main statements

* `Close.mul`, `Close.div`, `Close.add` — closeness through arithmetic
* `Close.of_error_le`, `Close.error_le` — from relative errors to closeness and back
* `Close.nearest` — an integer next to a number that is close to another integer
-/

namespace TreeQuery

/-- What a rounding leaves of a number at least. -/
def Close.kept : ℚ := 1 - 1 / 2 ^ 53

/-- The first number is the second one times a factor that `k` roundings can make up. -/
def Close (k : ℕ) (v r : ℚ) : Prop :=
  ∃ t, v = r * t ∧ Close.kept ^ k ≤ t ∧ t * Close.kept ^ k ≤ 1

namespace Close

variable {j k : ℕ} {v w r u : ℚ}

theorem kept_pos : 0 < kept := by
  norm_num [kept]

theorem kept_le_one : kept ≤ 1 := by
  norm_num [kept]

theorem kept_pow_pos (k : ℕ) : 0 < kept ^ k := pow_pos kept_pos k

theorem kept_pow_le_one (k : ℕ) : kept ^ k ≤ 1 := pow_le_one₀ kept_pos.le kept_le_one

theorem kept_pow_le (le : j ≤ k) : kept ^ k ≤ kept ^ j :=
  pow_le_pow_of_le_one kept_pos.le kept_le_one le

/-- Many roundings leave no less than one rounding that takes away as much as all of them. -/
theorem one_sub_le_kept_pow (k : ℕ) : 1 - k / 2 ^ 53 ≤ kept ^ k := by
  have bernoulli := one_add_mul_le_pow (a := -(1 / 2 ^ 53 : ℚ)) (by norm_num) k
  calc (1 - k / 2 ^ 53 : ℚ) = 1 + k * -(1 / 2 ^ 53) := by ring
    _ ≤ (1 + -(1 / 2 ^ 53)) ^ k := bernoulli
    _ = kept ^ k := by rw [kept, sub_eq_add_neg]

/-! ### Closeness as a relation -/

@[refl]
theorem refl (k : ℕ) (r : ℚ) : Close k r r :=
  ⟨1, (mul_one r).symm, kept_pow_le_one k, by rw [one_mul]; exact kept_pow_le_one k⟩

theorem of_eq (same : v = r) : Close k v r := same ▸ refl k v

theorem mono (close : Close j v r) (le : j ≤ k) : Close k v r := by
  obtain ⟨t, same, lower, upper⟩ := close
  have positive : 0 < t := (kept_pow_pos j).trans_le lower
  exact ⟨t, same, (kept_pow_le le).trans lower,
    (mul_le_mul_of_nonneg_left (kept_pow_le le) positive.le).trans upper⟩

theorem symm (close : Close k v r) : Close k r v := by
  obtain ⟨t, rfl, lower, upper⟩ := close
  have positive : 0 < t := (kept_pow_pos k).trans_le lower
  refine ⟨t⁻¹, (mul_inv_cancel_right₀ positive.ne' r).symm, ?_, ?_⟩
  · rwa [← one_div, le_div_iff₀ positive, mul_comm]
  · rwa [mul_comm, ← div_eq_mul_inv, div_le_one positive]

/-- Factors are multiplied, and their counts added. -/
theorem factors {s t : ℚ} (lower : kept ^ j ≤ s) (upper : s * kept ^ j ≤ 1) (lower' : kept ^ k ≤ t)
    (upper' : t * kept ^ k ≤ 1) : kept ^ (j + k) ≤ s * t ∧ s * t * kept ^ (j + k) ≤ 1 := by
  have positive : 0 < s := (kept_pow_pos j).trans_le lower
  have positive' : 0 < t := (kept_pow_pos k).trans_le lower'
  rw [pow_add]
  refine ⟨mul_le_mul lower lower' (kept_pow_pos k).le positive.le, ?_⟩
  rw [mul_mul_mul_comm]
  exact mul_le_one₀ upper (mul_pos positive' (kept_pow_pos k)).le upper'

theorem trans (close : Close j v w) (close' : Close k w r) : Close (j + k) v r := by
  obtain ⟨s, rfl, lower, upper⟩ := close
  obtain ⟨t, rfl, lower', upper'⟩ := close'
  obtain ⟨lower'', upper''⟩ := factors lower upper lower' upper'
  exact ⟨s * t, by ring, lower'', upper''⟩

/-! ### Closeness through arithmetic -/

theorem mul (close : Close j v r) (close' : Close k w u) : Close (j + k) (v * w) (r * u) := by
  obtain ⟨s, rfl, lower, upper⟩ := close
  obtain ⟨t, rfl, lower', upper'⟩ := close'
  obtain ⟨lower'', upper''⟩ := factors lower upper lower' upper'
  exact ⟨s * t, by ring, lower'', upper''⟩

theorem inv (close : Close k v r) : Close k v⁻¹ r⁻¹ := by
  obtain ⟨t, same, lower, upper⟩ := close.symm
  have positive : 0 < t := (kept_pow_pos k).trans_le lower
  refine ⟨t, ?_, lower, upper⟩
  rw [same, mul_inv, inv_mul_cancel_right₀ positive.ne']

theorem div (close : Close j v r) (close' : Close k w u) : Close (j + k) (v / w) (r / u) := by
  rw [div_eq_mul_inv, div_eq_mul_inv]
  exact close.mul close'.inv

theorem neg (close : Close k v r) : Close k (-v) (-r) := by
  obtain ⟨t, rfl, lower, upper⟩ := close
  exact ⟨t, (neg_mul r t).symm, lower, upper⟩

theorem abs (close : Close k v r) : Close k |v| |r| := by
  obtain ⟨t, rfl, lower, upper⟩ := close
  have positive : 0 < t := (kept_pow_pos k).trans_le lower
  exact ⟨t, by rw [abs_mul, abs_of_pos positive], lower, upper⟩

theorem bounds (close : Close k v r) (nonneg : 0 ≤ r) : r * kept ^ k ≤ v ∧ v * kept ^ k ≤ r := by
  obtain ⟨t, rfl, lower, upper⟩ := close
  refine ⟨mul_le_mul_of_nonneg_left lower nonneg, ?_⟩
  rw [mul_assoc]
  exact mul_le_of_le_one_right nonneg upper

theorem of_bounds (nonneg : 0 ≤ r) (lower : r * kept ^ k ≤ v) (upper : v * kept ^ k ≤ r) :
    Close k v r := by
  have positive := kept_pow_pos k
  rcases nonneg.eq_or_lt with rfl | pos
  · -- Between zero and zero there is nothing else.
    have none : v = 0 :=
      le_antisymm (nonpos_of_mul_nonpos_left upper positive) (by simpa using lower)
    exact of_eq none
  · refine ⟨v / r, (mul_div_cancel₀ v pos.ne').symm, ?_, ?_⟩
    · rwa [le_div_iff₀ pos, mul_comm]
    · rwa [div_mul_eq_mul_div, div_le_one pos]

theorem add (close : Close k v r) (close' : Close k w u) (nonneg : 0 ≤ r) (nonneg' : 0 ≤ u) :
    Close k (v + w) (r + u) := by
  obtain ⟨lower, upper⟩ := close.bounds nonneg
  obtain ⟨lower', upper'⟩ := close'.bounds nonneg'
  exact of_bounds (add_nonneg nonneg nonneg') (by linarith) (by linarith)

/-- Numbers of the same sign can be added: nothing is lost by cancelling. -/
theorem add_of_sign (close : Close k v r) (close' : Close k w u)
    (sign : 0 ≤ r ∧ 0 ≤ u ∨ r ≤ 0 ∧ u ≤ 0) : Close k (v + w) (r + u) := by
  rcases sign with ⟨nonneg, nonneg'⟩ | ⟨nonpos, nonpos'⟩
  · exact close.add close' nonneg nonneg'
  · have opposite := (close.neg.add close'.neg (neg_nonneg.mpr nonpos)
      (neg_nonneg.mpr nonpos')).neg
    rwa [← neg_add, neg_neg, ← neg_add, neg_neg] at opposite

theorem eq_zero_iff (close : Close k v r) : v = 0 ↔ r = 0 := by
  obtain ⟨t, rfl, lower, -⟩ := close
  have positive : 0 < t := (kept_pow_pos k).trans_le lower
  rw [mul_eq_zero, or_iff_left positive.ne']

theorem pos_iff (close : Close k v r) : 0 < v ↔ 0 < r := by
  obtain ⟨t, rfl, lower, -⟩ := close
  exact mul_pos_iff_of_pos_right ((kept_pow_pos k).trans_le lower)

/-! ### Relative errors -/

/-- A relative error that is no more than what the roundings take away. -/
theorem of_error_le (error : |v - r| ≤ (1 - kept ^ k) * |r|) : Close k v r := by
  rcases eq_or_ne r 0 with rfl | some
  · rw [abs_zero, mul_zero, sub_zero, abs_nonpos_iff] at error
    exact of_eq error
  · have factor : v = r * (v / r) := (mul_div_cancel₀ v some).symm
    have error' : |v / r - 1| ≤ 1 - kept ^ k := by
      rw [div_sub_one some, abs_div, div_le_iff₀ (abs_pos.mpr some)]
      exact error
    obtain ⟨lower, upper⟩ := abs_le.mp error'
    have positive := kept_pow_pos k
    -- A factor above one by some amount, times one below it by as much, is below one.
    exact ⟨v / r, factor, by linarith, by nlinarith⟩

/-- One rounding. -/
theorem of_rounding (error : |v - r| ≤ 1 / 2 ^ 53 * |r|) : Close 1 v r := by
  apply of_error_le
  rw [pow_one, kept, sub_sub_cancel]
  exact error

/-- A half is little of a number that has 52 bits behind its first. -/
theorem of_near (near : |v - r| ≤ 1 / 2) (large : 2 ^ 52 ≤ r) : Close 1 v r := by
  have positive : 0 < r := large.trans_lt' (by norm_num)
  apply of_rounding
  rw [abs_of_pos positive]
  exact near.trans (by linarith)

/-- A factor that a few roundings make up differs from one by hardly more than as many parts. -/
theorem abs_factor_sub_one_le {t : ℚ} (few : k ≤ 1000000) (lower : kept ^ k ≤ t)
    (upper : t * kept ^ k ≤ 1) : |t - 1| ≤ (k + 1 / 4) / 2 ^ 53 := by
  have bernoulli := one_sub_le_kept_pow k
  have few' : (k : ℚ) ≤ 1000000 := by exact_mod_cast few
  have some : (0 : ℚ) ≤ k := Nat.cast_nonneg k
  have positive : 0 < t := (kept_pow_pos k).trans_le lower
  have upper' : t * (1 - k / 2 ^ 53) ≤ 1 :=
    (mul_le_mul_of_nonneg_left bernoulli positive.le).trans upper
  rw [abs_le]
  constructor
  · linarith
  · nlinarith

/-- A few roundings take away hardly less than as many parts. -/
theorem kept_pow_le_one_sub (few : k ≤ 1000000) : kept ^ k ≤ 1 - (k - 1 / 4) / 2 ^ 53 := by
  have few' : (k : ℚ) ≤ 1000000 := by exact_mod_cast few
  have some : (0 : ℚ) ≤ k := Nat.cast_nonneg k
  have bernoulli := one_add_mul_le_pow (a := (1 / 2 ^ 53 : ℚ)) (by norm_num) k
  have square : kept * (1 + 1 / 2 ^ 53) ≤ 1 := by norm_num [kept]
  have product : kept ^ k * (1 + k * (1 / 2 ^ 53)) ≤ 1 := by
    calc kept ^ k * (1 + k * (1 / 2 ^ 53)) ≤ kept ^ k * (1 + 1 / 2 ^ 53) ^ k :=
          mul_le_mul_of_nonneg_left bernoulli (kept_pow_pos k).le
      _ = (kept * (1 + 1 / 2 ^ 53)) ^ k := (mul_pow ..).symm
      _ ≤ 1 := pow_le_one₀ (mul_nonneg kept_pos.le (by norm_num)) square
  nlinarith

theorem error_le (close : Close k v r) (few : k ≤ 1000000) :
    |v - r| ≤ (k + 1 / 4) / 2 ^ 53 * |r| := by
  obtain ⟨t, rfl, lower, upper⟩ := close
  have error : r * t - r = (t - 1) * r := by ring
  rw [error, abs_mul]
  exact mul_le_mul_of_nonneg_right (abs_factor_sub_one_le few lower upper) (abs_nonneg r)

/-- Up to 31 roundings are less than one part in `2 ^ 48`. -/
theorem error_le_of_few (close : Close k v r) (few : k ≤ 31) : |v - r| ≤ 1 / 2 ^ 48 * |r| := by
  have few' : (k : ℚ) ≤ 31 := by exact_mod_cast few
  refine (close.error_le (few.trans (by norm_num))).trans ?_
  refine mul_le_mul_of_nonneg_right ?_ (abs_nonneg r)
  rw [div_le_div_iff₀ (by positivity) (by positivity)]
  linarith

/-- An integer that is nearest to a number which is close to another integer: it is the other
integer, or the number is at least a half away from there, and rounding takes it no farther than it
was already. -/
theorem nearest {m n : ℤ} (close : Close k v m) (near : |n - v| ≤ 1 / 2) (few : k ≤ 1000) :
    Close (2 * k + 1) n m := by
  rcases lt_or_ge |v - m| (1 / 2) with inside | outside
  · have next : |(n - m : ℚ)| < 1 := by
      calc |(n - m : ℚ)| ≤ |n - v| + |v - m| := abs_sub_le _ _ _
        _ < 1 := by linarith
    have same : n = m := by
      have next' : |n - m| < 1 := by exact_mod_cast next
      exact sub_eq_zero.mp (Int.abs_lt_one_iff.mp next')
    exact of_eq (congrArg _ same)
  · apply of_error_le
    have away : |(n - m : ℚ)| ≤ 2 * |v - m| := by
      calc |(n - m : ℚ)| ≤ |n - v| + |v - m| := abs_sub_le _ _ _
        _ ≤ 2 * |v - m| := by linarith
    have taken := kept_pow_le_one_sub (k := 2 * k + 1) (by omega)
    have error := close.error_le (few.trans (by norm_num))
    push_cast at taken
    have factor : 2 * ((k + 1 / 4 : ℚ) / 2 ^ 53) ≤ 1 - kept ^ (2 * k + 1) := by linarith
    calc |(n - m : ℚ)| ≤ 2 * ((k + 1 / 4) / 2 ^ 53) * |(m : ℚ)| := by linarith
      _ ≤ (1 - kept ^ (2 * k + 1)) * |(m : ℚ)| :=
        mul_le_mul_of_nonneg_right factor (abs_nonneg _)

end Close

end TreeQuery
