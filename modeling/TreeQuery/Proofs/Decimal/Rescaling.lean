import TreeQuery.Proofs.Decimal.Conversion

/-!
# What bringing a result back to 96 bits costs

The exact result of an operation on decimals may have too many digits. Digits are dropped until the
magnitude fits and the scale is not too large. What that costs depends on the reason: a magnitude
that was too long stays long, so the last digit is little of it, but with a scale that was too large
everything may be dropped.

## Main definitions

* `Scaled.Dropping` — how many digits are dropped, and why
* `Scaled.Rescaled`, `Scaled.Delivers` — what a magnitude or a product is brought to

## Main statements

* `Scaled.rescaled_of_rescale?` — what is left of a magnitude and a scale
* `Scaled.delivers_of_mul?`, `Scaled.close_of_add?` — products and sums
* `Scaled.le_of_rescale?_none` — only large numbers cannot be brought back
-/

namespace TreeQuery

namespace Scaled

variable {a b d : Scaled} {m n s m' s' : ℕ} {r : ℚ}

/-! ### Rounded quotients -/

/-- A rounded quotient is the nearest integer. -/
theorem divHalfEven_near (m : ℕ) (pos : 0 < n) : |(divHalfEven m n - m / n : ℚ)| ≤ 1 / 2 := by
  have pos' : (0 : ℚ) < n := by exact_mod_cast pos
  have division : (n * (m / n : ℕ) + (m % n : ℕ) : ℚ) = m := by
    exact_mod_cast Nat.div_add_mod m n
  have remainder : ((m % n : ℕ) : ℚ) < n := by exact_mod_cast Nat.mod_lt m pos
  have nonneg : (0 : ℚ) ≤ (m % n : ℕ) := Nat.cast_nonneg _
  have distance (q : ℚ) : q - m / n = ((q - (m / n : ℕ)) * n - (m % n : ℕ)) / n := by
    rw [← division]
    field_simp
    ring
  rw [distance, abs_div, abs_of_pos pos', div_le_iff₀ pos', abs_le, divHalfEven]
  cases side : compare (2 * (m % n)) n with
  | lt =>
    have below : (2 * (m % n : ℕ) : ℚ) < n := by exact_mod_cast Nat.compare_eq_lt.mp side
    rw [sub_self, zero_mul]
    constructor <;> linarith
  | gt =>
    have above : (n : ℚ) < 2 * (m % n : ℕ) := by exact_mod_cast Nat.compare_eq_gt.mp side
    push_cast
    rw [add_sub_cancel_left, one_mul]
    constructor <;> linarith
  | eq =>
    -- Both neighbours are half a unit away.
    have half : (2 * (m % n : ℕ) : ℚ) = n := by exact_mod_cast Nat.compare_eq_eq.mp side
    simp only [Nat.cast_add, add_sub_cancel_left]
    rcases Binary64.cast_mod_two (m / n) with even | odd
    · rw [even, zero_mul]
      constructor <;> linarith
    · rw [odd, one_mul]
      constructor <;> linarith

theorem divHalfEven_one (m : ℕ) : divHalfEven m 1 = m := by
  rw [divHalfEven, Nat.div_one, Nat.mod_one]
  rfl

/-- Up to a half is rounded to nothing. -/
theorem divHalfEven_eq_zero_iff (m : ℕ) (pos : 0 < n) :
    divHalfEven m n = 0 ↔ (m / n : ℚ) ≤ 1 / 2 := by
  have pos' : (0 : ℚ) < n := by exact_mod_cast pos
  have half : (m / n : ℚ) ≤ 1 / 2 ↔ 2 * m ≤ n := by
    rw [div_le_div_iff₀ pos' two_pos, one_mul, mul_comm]
    exact_mod_cast Iff.rfl
  rw [half, divHalfEven]
  rcases lt_or_ge m n with small | large
  · rw [Nat.div_eq_of_lt small, Nat.mod_eq_of_lt small]
    cases side : compare (2 * m) n with
    | lt => simpa using (Nat.compare_eq_lt.mp side).le
    | gt => simpa using Nat.compare_eq_gt.mp side
    | eq => simpa using (Nat.compare_eq_eq.mp side).le
  · have some : 0 < m / n := Nat.div_pos large pos
    split <;> omega

/-! ### Digits to drop -/

/-- The number of digits that the length of a magnitude asks for is not too large: what is left has
more than 92 bits. -/
theorem excess_le (large : magnitudeBound ≤ m) :
    10 ^ ((Nat.log2 m + 1 - 97) * 77 / 256) * magnitudeBound ≤ m := by
  have nonzero : m ≠ 0 := by
    rintro rfl
    exact absurd large (by decide)
  have bits : 96 ≤ m.log2 := (Nat.le_log2 nonzero).mpr large
  obtain ⟨k, log⟩ : ∃ k, m.log2 = 96 + k := ⟨m.log2 - 96, by omega⟩
  have fraction : Nat.log2 m + 1 - 97 = k := by omega
  rw [fraction]
  -- `77 / 256` is a little less than the logarithm of two to the base ten.
  have power : 10 ^ (k * 77 / 256) ≤ 2 ^ k := by
    rw [← Nat.pow_le_pow_iff_left (n := 256) (by decide), ← Nat.pow_mul, ← Nat.pow_mul]
    calc 10 ^ (k * 77 / 256 * 256) ≤ 10 ^ (77 * k) :=
          Nat.pow_le_pow_right (by decide) (by omega)
      _ = (10 ^ 77) ^ k := Nat.pow_mul ..
      _ ≤ (2 ^ 256) ^ k := Nat.pow_le_pow_left (by decide) k
      _ = 2 ^ (k * 256) := by rw [← Nat.pow_mul, Nat.mul_comm]
  calc 10 ^ (k * 77 / 256) * magnitudeBound ≤ 2 ^ k * 2 ^ 96 := Nat.mul_le_mul_right _ power
    _ = 2 ^ m.log2 := by rw [log, Nat.pow_add, Nat.mul_comm]
    _ ≤ m := Nat.log2_self_le nonzero

/-- One digit more is dropped only where the magnitude is still too long. -/
theorem digitsToDrop_eq_some {dropped drop : ℕ}
    (given : digitsToDrop m dropped s = some (drop, s')) :
    drop + s' = dropped + s ∧ m / 10 ^ drop < magnitudeBound ∧
      (drop = dropped ∨ ∃ j, drop = j + 1 ∧ dropped ≤ j ∧ magnitudeBound ≤ m / 10 ^ j) := by
  induction s generalizing dropped with
  | zero =>
    rw [digitsToDrop] at given
    split at given
    · next fits =>
      cases given
      exact ⟨rfl, fits, .inl rfl⟩
    · cases given
  | succ s ih =>
    rw [digitsToDrop] at given
    split at given
    · next fits =>
      cases given
      exact ⟨rfl, fits, .inl rfl⟩
    · next long =>
      obtain ⟨total, fits, same | ⟨j, same, le, long'⟩⟩ := ih given
      · exact ⟨by omega, fits, .inr ⟨dropped, same, le_rfl, Nat.le_of_not_lt long⟩⟩
      · exact ⟨by omega, fits, .inr ⟨j, same, by omega, long'⟩⟩

theorem digitsToDrop_eq_none {dropped : ℕ} (given : digitsToDrop m dropped s = none) :
    magnitudeBound ≤ m / 10 ^ (dropped + s) := by
  induction s generalizing dropped with
  | zero =>
    rw [digitsToDrop] at given
    split at given
    · cases given
    · next long => exact Nat.le_of_not_lt long
  | succ s ih =>
    rw [digitsToDrop] at given
    split at given
    · cases given
    · rw [← Nat.add_assoc, Nat.add_right_comm]
      exact ih given

/-- So many digits are dropped that the magnitude fits and the scale is not too large, and no more
than one of these asks for. -/
structure Dropping (m s drop scale : ℕ) : Prop where
  total : drop + scale = s
  le : scale ≤ maxScale
  fits : m / 10 ^ drop < magnitudeBound
  reason : drop = 0 ∨ scale = maxScale ∨ 10 ^ drop * magnitudeBound ≤ 10 * m

theorem dropping_of_digitsToDrop {needed drop : ℕ} (le : needed ≤ s) (scale : s ≤ needed + maxScale)
    (reason : s = needed + maxScale ∨ 10 ^ needed * magnitudeBound ≤ 10 * m)
    (given : digitsToDrop m needed (s - needed) = some (drop, s')) : Dropping m s drop s' := by
  obtain ⟨total, fits, same | ⟨j, rfl, below, long⟩⟩ := digitsToDrop_eq_some given
  · subst same
    exact ⟨by omega, by omega, fits, .inr (reason.imp_left fun places => by omega)⟩
  · refine ⟨by omega, by omega, fits, .inr (.inr ?_)⟩
    rw [Nat.le_div_iff_mul_le (Nat.pow_pos (by decide))] at long
    calc 10 ^ (j + 1) * magnitudeBound = 10 * (magnitudeBound * 10 ^ j) := by ring
      _ ≤ 10 * m := Nat.mul_le_mul_left 10 long

/-- The digits that the length of a magnitude asks for. -/
def excess (m : ℕ) : ℕ :=
  if m ≥ magnitudeBound then (Nat.log2 m + 1 - 97) * 77 / 256 + 1 else 0

theorem excess_long (some : excess m ≠ 0) : 10 ^ excess m * magnitudeBound ≤ 10 * m := by
  unfold excess at some ⊢
  split
  · next large =>
    rw [Nat.pow_succ, Nat.mul_right_comm, Nat.mul_comm _ 10]
    exact Nat.mul_le_mul_left 10 (excess_le large)
  · next short => exact absurd (if_neg short) some

/-- The digits to drop and the scale that is left. -/
def shortened? (m s : ℕ) : Option (ℕ × ℕ) :=
  if max (excess m) (s - maxScale) = 0 then some (0, s)
  else digitsToDrop m (max (excess m) (s - maxScale)) (s - max (excess m) (s - maxScale))

theorem dropping_of_shortened? {drop : ℕ} (le : excess m ≤ s)
    (given : shortened? m s = some (drop, s')) : Dropping m s drop s' := by
  unfold shortened? at given
  split at given
  · next none =>
    cases given
    obtain ⟨none, places⟩ := Nat.max_eq_zero_iff.mp none
    have short : m < magnitudeBound := by
      by_contra long
      rw [excess, if_pos (Nat.le_of_not_lt long)] at none
      cases none
    exact ⟨Nat.zero_add s, by omega, by rwa [Nat.pow_zero, Nat.div_one], .inl rfl⟩
  · next needed =>
    refine dropping_of_digitsToDrop (max_le le (Nat.sub_le ..)) ?_ ?_ given
    · exact Nat.sub_le_iff_le_add.mp (le_max_right ..)
    · -- The larger of the two numbers is the reason.
      rcases le_total (excess m) (s - maxScale) with places | digits
      · rw [max_eq_right places] at needed ⊢
        exact .inl (by omega)
      · rw [max_eq_left digits] at needed ⊢
        exact .inr (excess_long needed)

/-- The digits are dropped, the rest is rounded, and once more if that has made it too long. -/
theorem rescale?_eq (m s : ℕ) : rescale? m s =
    if excess m > s then none else (shortened? m s).bind fun (drop, scale) =>
      if divHalfEven m (10 ^ drop) < magnitudeBound then some (divHalfEven m (10 ^ drop), scale)
      else if scale = 0 then none
      else some (divHalfEven (divHalfEven m (10 ^ drop)) 10, scale - 1) := by
  unfold rescale? shortened?
  rw [← excess]
  dsimp only
  split
  · rfl
  · split <;> rfl

/-! ### What is left -/

/-- The second magnitude and scale are what the first are brought to: where the scale was small
enough, nothing but one rounding lies between them, and elsewhere hardly more than half a unit of
the largest scale. -/
structure Rescaled (m s m' s' : ℕ) : Prop where
  lt : m' < magnitudeBound
  le : s' ≤ maxScale
  accurate : Close 1 (m' / 10 ^ s') (m / 10 ^ s) ∨
    maxScale < s ∧ |(m' / 10 ^ s' - m / 10 ^ s : ℚ)| ≤ 11 / 20 / 10 ^ maxScale
  zero : m' = 0 ↔ (m / 10 ^ s : ℚ) ≤ 1 / 2 / 10 ^ maxScale

/-- Digits were dropped, and what is left is next to the number of units that there were. -/
theorem rescaled_of_near {drop : ℕ} (total : drop + s' = s) (le : s' ≤ maxScale)
    (lt : m' < magnitudeBound) (near : |(m' - m / 10 ^ drop : ℚ)| ≤ 11 / 20)
    (zero : m' = 0 ↔ (m / 10 ^ drop : ℚ) ≤ 1 / 2)
    (reason : m' = m ∧ drop = 0 ∨ s' = maxScale ∧ maxScale < s ∨ 2 ^ 90 ≤ m') :
    Rescaled m s m' s' := by
  have power : (0 : ℚ) < 10 ^ s' := by positivity
  have power' : (10 : ℚ) ^ s' ≤ 10 ^ maxScale := (power_bounds le).2
  have some (y : ℚ) (large : 1 / 2 < y) : ¬ y / 10 ^ s' ≤ 1 / 2 / 10 ^ maxScale := by
    rw [not_le, div_lt_div_iff₀ (by positivity) power]
    nlinarith
  have units : (m / 10 ^ s : ℚ) = m / 10 ^ drop / 10 ^ s' := by
    rw [← total, pow_add, div_div]
  rcases reason with ⟨rfl, rfl⟩ | ⟨rfl, beyond⟩ | large
  · obtain rfl : s' = s := by omega
    refine ⟨lt, le, .inl (.refl _ _), ?_⟩
    rcases Nat.eq_zero_or_pos m' with rfl | pos
    · rw [Nat.cast_zero, zero_div]
      exact iff_of_true rfl (by positivity)
    · have one_le : (1 : ℚ) ≤ m' := by exact_mod_cast pos
      exact iff_of_false (by omega) (some m' (by linarith))
  · refine ⟨lt, le_rfl, .inr ⟨beyond, ?_⟩, ?_⟩
    · rw [units, ← sub_div, abs_div, abs_of_pos power]
      exact div_le_div_of_nonneg_right near power.le
    · rw [zero, units, div_le_div_iff_of_pos_right power]
  · have large' : (2 ^ 90 : ℚ) ≤ m' := by exact_mod_cast large
    have below := (abs_le.mp near).2
    have nonneg : (0 : ℚ) ≤ m / 10 ^ drop := by positivity
    have rounding : Close 1 m' (m / 10 ^ drop) := by
      apply Close.of_rounding
      rw [abs_of_nonneg nonneg]
      exact near.trans (by linarith)
    have close := rounding.div (.refl 0 ((10 : ℚ) ^ s'))
    rw [← units] at close
    refine ⟨lt, le, .inl close, ?_⟩
    rw [units]
    exact iff_of_false (by omega) (some _ (by linarith))

/-- What is left fits, and it is long if that was the reason to drop digits. -/
theorem Dropping.bounds {drop scale : ℕ} (h : Dropping m s drop scale) :
    (m / 10 ^ drop : ℚ) < 2 ^ 96 ∧
      (10 ^ drop * magnitudeBound ≤ 10 * m → (2 ^ 96 / 10 : ℚ) ≤ m / 10 ^ drop) := by
  have bound : ((magnitudeBound : ℕ) : ℚ) = 2 ^ 96 := by norm_num [magnitudeBound]
  have pos : (0 : ℚ) < 10 ^ drop := by positivity
  constructor
  · have fits := h.fits
    rw [Nat.div_lt_iff_lt_mul (Nat.pow_pos (by decide))] at fits
    rw [div_lt_iff₀ pos, ← bound]
    exact_mod_cast fits
  · intro long
    rw [div_le_div_iff₀ (by norm_num) pos, mul_comm, mul_comm (m : ℚ), ← bound]
    exact_mod_cast long

/-- Digits were dropped, and the rest was rounded. -/
theorem Dropping.rescaled {drop scale : ℕ} (h : Dropping m s drop scale)
    (fits : divHalfEven m (10 ^ drop) < magnitudeBound) :
    Rescaled m s (divHalfEven m (10 ^ drop)) scale := by
  have pos : 0 < 10 ^ drop := Nat.pow_pos (by decide)
  have near := divHalfEven_near m pos
  have zero := divHalfEven_eq_zero_iff m pos
  push_cast at near zero
  refine rescaled_of_near h.total h.le fits (near.trans (by norm_num)) zero ?_
  rcases Nat.eq_zero_or_pos drop with rfl | some
  · exact .inl ⟨divHalfEven_one m, rfl⟩
  right
  rcases h.reason with none | places | long
  · omega
  · exact .inl ⟨places, by have := h.total; omega⟩
  · right
    have above := h.bounds.2 long
    have large : (2 ^ 90 : ℚ) ≤ divHalfEven m (10 ^ drop) := by
      linarith [(abs_le.mp near).1]
    exact_mod_cast large

/-- Rounding has made a magnitude of 97 bits, of which the last digit is dropped again. -/
theorem Dropping.rescaled_again {drop scale : ℕ} (h : Dropping m s drop scale)
    (carry : magnitudeBound ≤ divHalfEven m (10 ^ drop)) (some : scale ≠ 0) :
    Rescaled m s (divHalfEven (divHalfEven m (10 ^ drop)) 10) (scale - 1) := by
  have bound : ((magnitudeBound : ℕ) : ℚ) = 2 ^ 96 := by norm_num [magnitudeBound]
  have total := h.total
  have le := h.le
  have below := h.bounds.1
  have near := divHalfEven_near m (n := 10 ^ drop) (Nat.pow_pos (by decide))
  have near' := divHalfEven_near (divHalfEven m (10 ^ drop)) (n := 10) (by decide)
  have above : (2 ^ 96 : ℚ) ≤ divHalfEven m (10 ^ drop) := by
    rw [← bound]
    exact_mod_cast carry
  generalize divHalfEven m (10 ^ drop) = q at near near' above
  generalize divHalfEven q 10 = m' at near'
  push_cast at near near'
  obtain ⟨lower, upper⟩ := abs_le.mp near
  obtain ⟨lower', upper'⟩ := abs_le.mp near'
  have units : (m / 10 ^ (drop + 1) : ℚ) = m / 10 ^ drop / 10 := by
    rw [pow_succ, div_div]
  have large : (2 ^ 90 : ℚ) ≤ m' := by linarith
  have large' : 2 ^ 90 ≤ m' := by exact_mod_cast large
  have small : (m' : ℚ) < (magnitudeBound : ℕ) := by
    rw [bound]
    linarith
  refine @rescaled_of_near m s m' (scale - 1) (drop + 1) (by omega) (by omega)
    (by exact_mod_cast small) ?_ ?_ (.inr (.inr large'))
  · -- The first rounding counts a tenth in the new unit.
    rw [units, abs_le]
    constructor <;> linarith
  · rw [units]
    exact iff_of_false (by omega) (by linarith)

theorem rescaled_of_rescale? (given : rescale? m s = some (m', s')) : Rescaled m s m' s' := by
  rw [rescale?_eq] at given
  split at given
  · cases given
  · next fits =>
    obtain ⟨⟨drop, scale⟩, shortened, given⟩ := Option.bind_eq_some_iff.mp given
    have dropping := dropping_of_shortened? (Nat.le_of_not_lt fits) shortened
    dsimp only at given
    split at given
    · next small =>
      cases given
      exact dropping.rescaled small
    · next carry =>
      split at given
      · cases given
      · next some =>
        cases given
        exact dropping.rescaled_again (Nat.le_of_not_lt carry) some

/-- Only a number that does not fit as an integer cannot be brought to 96 bits. -/
theorem le_of_rescale?_none (none : rescale? m s = none) : (magnitudeBound - 1) * 10 ^ s ≤ m := by
  have pos (k : ℕ) : 0 < 10 ^ k := Nat.pow_pos (by decide)
  rw [rescale?_eq] at none
  split at none
  · next more =>
    have long := excess_long (Nat.ne_of_gt (Nat.zero_lt_of_lt more))
    have power : 10 ^ (s + 1) ≤ 10 ^ excess m := Nat.pow_le_pow_right (by decide) more
    have product : magnitudeBound * 10 ^ s * 10 ≤ m * 10 := by
      calc magnitudeBound * 10 ^ s * 10 = 10 ^ (s + 1) * magnitudeBound := by ring
        _ ≤ 10 ^ excess m * magnitudeBound := Nat.mul_le_mul_right _ power
        _ ≤ m * 10 := by rwa [Nat.mul_comm m]
    exact (Nat.mul_le_mul_right _ (Nat.sub_le magnitudeBound 1)).trans
      (Nat.le_of_mul_le_mul_right product (by decide))
  · next fits =>
    cases shortened : shortened? m s with
    | none =>
      unfold shortened? at shortened
      split at shortened
      · cases shortened
      · have long := digitsToDrop_eq_none shortened
        have total : max (excess m) (s - maxScale) + (s - max (excess m) (s - maxScale)) = s :=
          Nat.add_sub_of_le (max_le (Nat.le_of_not_lt fits) (Nat.sub_le ..))
        rw [total, Nat.le_div_iff_mul_le (pos s)] at long
        exact (Nat.mul_le_mul_right _ (Nat.sub_le magnitudeBound 1)).trans long
    | some given =>
      obtain ⟨drop, scale⟩ := given
      have total := (dropping_of_shortened? (Nat.le_of_not_lt fits) shortened).total
      rw [shortened, Option.bind_some] at none
      dsimp only at none
      split at none
      · cases none
      · next carry =>
        split at none
        · next integer =>
          -- No digits are left to be dropped.
          obtain rfl : drop = s := by omega
          have near := (abs_le.mp (divHalfEven_near m (pos drop))).2
          have above : ((magnitudeBound : ℕ) : ℚ) ≤ divHalfEven m (10 ^ drop) := by
            exact_mod_cast Nat.le_of_not_lt carry
          have pos' : (0 : ℚ) < 10 ^ drop := by positivity
          push_cast at near
          have quotient : ((magnitudeBound : ℕ) - 1 : ℚ) ≤ m / 10 ^ drop := by linarith
          rw [le_div_iff₀ pos'] at quotient
          have cast : ((magnitudeBound - 1 : ℕ) : ℚ) = (magnitudeBound : ℕ) - 1 :=
            Nat.cast_pred (Nat.two_pow_pos 96)
          rw [← cast] at quotient
          exact_mod_cast quotient
        · cases none

/-! ### Products -/

theorem signed_mul (n n' : Bool) (r u : ℚ) :
    signed n r * signed n' u = signed (n != n') (r * u) := by
  cases n <;> cases n' <;> simp [signed]

theorem close_signed {k : ℕ} {v : ℚ} (close : Close k v r) (n : Bool) :
    Close k (signed n v) (signed n r) := by
  cases n with
  | false => exact close
  | true => exact close.neg

theorem signed_sub (n : Bool) (v r : ℚ) : signed n v - signed n r = signed n (v - r) := by
  cases n with
  | false => rfl
  | true => exact neg_sub_neg v r |>.trans (neg_sub v r).symm

theorem value_of_magnitude_zero (zero : d.magnitude = 0) : d.value = 0 := by
  rw [value, zero, Nat.cast_zero, zero_div, signed_zero]

theorem value_eq_zero_iff : d.value = 0 ↔ d.magnitude = 0 := by
  refine ⟨fun none => ?_, value_of_magnitude_zero⟩
  have magnitude := abs_signed d.negative (d.magnitude / 10 ^ d.scale)
  rw [← value, none, abs_zero, eq_comm, abs_eq_zero, div_eq_zero_iff] at magnitude
  exact_mod_cast magnitude.resolve_right (by positivity)

/-- The decimal is what the number is brought to: nothing but one rounding lies between them, or
hardly more than half a unit of the largest scale, and just up to this half nothing is left. -/
structure Delivers (d : Scaled) (r : ℚ) : Prop where
  lt : d.magnitude < magnitudeBound
  le : d.scale ≤ maxScale
  accurate : Close 1 d.value r ∨ |d.value - r| ≤ 11 / 20 / 10 ^ maxScale
  zero : d.magnitude = 0 ↔ |r| ≤ 1 / 2 / 10 ^ maxScale

theorem delivers_zero : Delivers zero 0 := by
  have none : zero.value = 0 := value_of_magnitude_zero rfl
  refine ⟨by decide, by decide, .inl (.of_eq none), ?_⟩
  rw [abs_zero]
  exact iff_of_true rfl (by positivity)

/-- The magnitude of a product with its sign. -/
theorem delivers_of_rescaled
    (rescaled : Rescaled (a.magnitude * b.magnitude) (a.scale + b.scale) d.magnitude d.scale)
    (sign : d.magnitude ≠ 0 → d.negative = (a.negative != b.negative)) :
    Delivers d (a.value * b.value) := by
  have value_eq : d.value = signed (a.negative != b.negative) (d.magnitude / 10 ^ d.scale) := by
    by_cases zero : d.magnitude = 0
    · rw [value_of_magnitude_zero zero, zero, Nat.cast_zero, zero_div, signed_zero]
    · rw [value, sign zero]
  have product : a.value * b.value = signed (a.negative != b.negative)
      ((a.magnitude * b.magnitude : ℕ) / 10 ^ (a.scale + b.scale)) := by
    rw [value, value, signed_mul, pow_add, div_mul_div_comm]
    push_cast
    rfl
  have nonneg : (0 : ℚ) ≤ (a.magnitude * b.magnitude : ℕ) / 10 ^ (a.scale + b.scale) := by
    positivity
  obtain ⟨lt, le, accurate, zero⟩ := rescaled
  rw [product]
  refine ⟨lt, le, ?_, ?_⟩
  · rw [value_eq, signed_sub, abs_signed]
    exact accurate.imp (fun close => close_signed close _) And.right
  · rw [abs_signed, abs_of_nonneg nonneg]
    exact zero

/-- A product of short magnitudes, with more digits after the point than it has at all. -/
theorem rescaled_of_far (short : m < 2 ^ 64) (far : 47 < s) : Rescaled m s 0 0 := by
  have short' : (m : ℚ) < 2 ^ 64 := by exact_mod_cast short
  have power : (10 : ℚ) ^ 48 ≤ 10 ^ s := pow_le_pow_right₀ (by norm_num) far
  have half : (m / 10 ^ s : ℚ) ≤ 1 / 2 / 10 ^ maxScale := by
    calc (m / 10 ^ s : ℚ) ≤ 2 ^ 64 / 10 ^ 48 := by gcongr
      _ ≤ 1 / 2 / 10 ^ maxScale := by norm_num [maxScale]
  have nonneg : (0 : ℚ) ≤ m / 10 ^ s := by positivity
  refine ⟨by decide, by decide, .inr ⟨lt_trans (by decide) far, ?_⟩, iff_of_true rfl half⟩
  rw [Nat.cast_zero, zero_div, zero_sub, abs_neg, abs_of_nonneg nonneg]
  exact half.trans (div_le_div_of_nonneg_right (by norm_num) (by positivity))

/-- A product of short magnitudes, brought to the largest scale. -/
theorem rescaled_of_beyond (short : m < 2 ^ 64) (beyond : maxScale < s) :
    Rescaled m s (divHalfEven m (10 ^ (s - maxScale))) maxScale := by
  have pos : 0 < 10 ^ (s - maxScale) := Nat.pow_pos (by decide)
  have near := divHalfEven_near m pos
  have zero := divHalfEven_eq_zero_iff m pos
  push_cast at near zero
  have quotient : (m / 10 ^ (s - maxScale) : ℚ) ≤ m :=
    div_le_self (Nat.cast_nonneg m) (one_le_pow₀ (by norm_num))
  have short' : (m : ℚ) < 2 ^ 64 := by exact_mod_cast short
  have small : (divHalfEven m (10 ^ (s - maxScale)) : ℚ) < 2 ^ 96 := by
    linarith [(abs_le.mp near).2]
  exact rescaled_of_near (by omega) le_rfl (by exact_mod_cast small) (near.trans (by norm_num)) zero
    (.inr (.inl ⟨rfl, beyond⟩))

theorem rescaled_self (lt : m < magnitudeBound) (le : s ≤ maxScale) : Rescaled m s m s :=
  rescaled_of_rescale? (rescale?_of_lt lt le)

/-- A product is brought to 96 bits and 28 digits after the point. -/
theorem delivers_of_mul? (given : mul? a b = some d) : Delivers d (a.value * b.value) := by
  unfold mul? at given
  dsimp only at given
  split at given
  · next none =>
    cases given
    have product : a.value * b.value = 0 :=
      mul_eq_zero.mpr (none.imp value_of_magnitude_zero value_of_magnitude_zero)
    rw [product]
    exact delivers_zero
  · split at given
    · next short =>
      have product : a.magnitude * b.magnitude < 2 ^ 32 * 2 ^ 32 :=
        Nat.mul_lt_mul'' short.1 short.2
      split at given
      · next far =>
        cases given
        exact delivers_of_rescaled (rescaled_of_far product far) (absurd rfl)
      · split at given
        · next beyond =>
          cases given
          exact delivers_of_rescaled (rescaled_of_beyond product beyond) fun some =>
            (congrArg _ (decide_eq_true some)).trans (Bool.and_true _)
        · next places =>
          cases given
          exact delivers_of_rescaled
            (rescaled_self (product.trans (by decide)) (Nat.le_of_not_lt places)) fun _ => rfl
    · obtain ⟨⟨m, s⟩, rescaled, given⟩ := Option.bind_eq_some_iff.mp given
      cases given
      exact delivers_of_rescaled (rescaled_of_rescale? rescaled) fun _ => rfl

/-- Only large products cannot be brought to 96 bits. -/
theorem le_of_mul?_none (none : mul? a b = none) : 2 ^ 95 ≤ |a.value * b.value| := by
  unfold mul? at none
  dsimp only at none
  split at none
  · cases none
  · split at none
    · split at none
      · cases none
      · split at none <;> cases none
    · have failed : rescale? (a.magnitude * b.magnitude) (a.scale + b.scale) = Option.none := by
        cases result : rescale? (a.magnitude * b.magnitude) (a.scale + b.scale) with
        | none => rfl
        | some _ => rw [result] at none; cases none
      have large := le_of_rescale?_none failed
      have large' : ((magnitudeBound - 1 : ℕ) * 10 ^ (a.scale + b.scale) : ℚ) ≤
          a.magnitude * b.magnitude := by exact_mod_cast large
      have bound : (2 ^ 95 : ℚ) ≤ (magnitudeBound - 1 : ℕ) := by norm_num [magnitudeBound]
      rw [value, value, signed_mul, abs_signed, div_mul_div_comm, ← pow_add,
        abs_of_nonneg (by positivity), le_div_iff₀ (by positivity)]
      exact (mul_le_mul_of_nonneg_right bound (by positivity)).trans large'

/-! ### Sums -/

/-- The magnitude with its sign, in units of a scale. -/
def aligned (s : ℕ) (d : Scaled) : ℤ :=
  if d.negative then -(d.magnitude * Nat.pow 10 (s - d.scale))
  else d.magnitude * Nat.pow 10 (s - d.scale)

theorem value_eq_aligned (le : d.scale ≤ s) : d.value = aligned s d / 10 ^ s := by
  obtain ⟨k, rfl⟩ : ∃ k, s = d.scale + k := ⟨s - d.scale, by omega⟩
  have left : d.scale + k - d.scale = k := by omega
  have power : Nat.pow 10 k = 10 ^ k := rfl
  have units : (d.magnitude / 10 ^ d.scale : ℚ) =
      d.magnitude * 10 ^ k / 10 ^ (d.scale + k) := by
    rw [pow_add]
    field_simp
  rw [value, units, aligned, left, power]
  cases d.negative with
  | false => simp [signed]
  | true => simp [signed, neg_div]

/-- The sum of two decimals in units of the larger scale. -/
def sumOf (a b : Scaled) : ℤ :=
  aligned (max a.scale b.scale) a + aligned (max a.scale b.scale) b

theorem value_add (a b : Scaled) : a.value + b.value = sumOf a b / 10 ^ max a.scale b.scale := by
  rw [value_eq_aligned (le_max_left a.scale b.scale),
    value_eq_aligned (le_max_right a.scale b.scale), ← add_div, sumOf]
  push_cast
  rfl

theorem add?_eq (some : a.magnitude ≠ 0) (some' : b.magnitude ≠ 0) : add? a b =
    (rescale? (sumOf a b).natAbs (max a.scale b.scale)).map fun (m, s) =>
      ⟨decide (sumOf a b < 0), m, s⟩ := by
  rw [add?, if_neg some, if_neg some']
  cases same : rescale? (sumOf a b).natAbs (max a.scale b.scale) with
  | none => exact (congrArg (Option.bind · _) same)
  | some _ => exact (congrArg (Option.bind · _) same)

theorem signed_natAbs (z : ℤ) (r : ℚ) : (z / r : ℚ) = signed (z < 0) (z.natAbs / r) := by
  rcases lt_or_ge z 0 with negative | nonneg
  · have negative' : (z : ℚ) < 0 := by exact_mod_cast negative
    rw [decide_eq_true negative, Nat.cast_natAbs, Int.cast_abs, abs_of_neg negative', signed,
      if_pos rfl, neg_div, neg_neg]
  · have nonneg' : (0 : ℚ) ≤ z := by exact_mod_cast nonneg
    rw [decide_eq_false (not_lt.mpr nonneg), Nat.cast_natAbs, Int.cast_abs, abs_of_nonneg nonneg']
    rfl

/-- A sum is brought to 96 bits, which is one rounding at most. -/
theorem close_of_add? (ha : a.WellFormed) (hb : b.WellFormed) (given : add? a b = some d) :
    d.magnitude < magnitudeBound ∧ d.scale ≤ maxScale ∧ Close 1 d.value (a.value + b.value) := by
  by_cases none : a.magnitude = 0
  · rw [add?, if_pos none] at given
    cases given
    exact ⟨hb.lt, hb.le, .of_eq (by rw [value_of_magnitude_zero none, zero_add])⟩
  by_cases none' : b.magnitude = 0
  · rw [add?, if_neg none, if_pos none'] at given
    cases given
    exact ⟨ha.lt, ha.le, .of_eq (by rw [value_of_magnitude_zero none', add_zero])⟩
  rw [add?_eq none none'] at given
  obtain ⟨⟨m, s⟩, rescaled, same⟩ := Option.map_eq_some_iff.mp given
  cases same
  obtain ⟨lt, le, accurate, -⟩ := rescaled_of_rescale? rescaled
  have close := accurate.resolve_right fun far => absurd far.1 (not_lt.mpr (max_le ha.le hb.le))
  rw [value_add, signed_natAbs]
  exact ⟨lt, le, close_signed close _⟩

theorem exists_aligned (h : d.WellFormed) (some : d.magnitude ≠ 0) (s : ℕ) :
    ∃ x : ℕ, aligned s d = (if d.negative then -(x : ℤ) else x) ∧ 0 < x ∧
      x ≤ (magnitudeBound - 1) * 10 ^ s := by
  refine ⟨d.magnitude * Nat.pow 10 (s - d.scale), ?_, ?_, ?_⟩
  · rw [aligned]
    push_cast
    rfl
  · exact Nat.mul_pos (Nat.pos_of_ne_zero some) (Nat.pow_pos (by decide))
  · exact Nat.mul_le_mul (Nat.le_sub_one_of_lt h.lt)
      (Nat.pow_le_pow_right (by decide) (Nat.sub_le s d.scale))

/-- Only where nothing is cancelled can a sum not be brought to 96 bits. -/
theorem of_add?_none (ha : a.WellFormed) (hb : b.WellFormed) (none : add? a b = none) :
    a.magnitude ≠ 0 ∧ b.magnitude ≠ 0 ∧ a.negative = b.negative := by
  by_cases zero : a.magnitude = 0
  · rw [add?, if_pos zero] at none
    cases none
  by_cases zero' : b.magnitude = 0
  · rw [add?, if_neg zero, if_pos zero'] at none
    cases none
  rw [add?_eq zero zero', Option.map_eq_none_iff] at none
  have large := le_of_rescale?_none none
  refine ⟨zero, zero', ?_⟩
  by_contra opposite
  obtain ⟨x, aligned_a, pos, le⟩ := exists_aligned ha zero (max a.scale b.scale)
  obtain ⟨y, aligned_b, pos', le'⟩ := exists_aligned hb zero' (max a.scale b.scale)
  rw [sumOf, aligned_a, aligned_b] at large
  -- The difference of two magnitudes is less than the larger one.
  generalize (magnitudeBound - 1) * 10 ^ max a.scale b.scale = bound at large le le'
  cases sign : a.negative with
  | false =>
    have sign' : b.negative = true := by
      rw [sign] at opposite
      exact Bool.eq_true_of_not_eq_false (Ne.symm opposite)
    rw [sign, sign', if_pos rfl, if_neg Bool.false_ne_true] at large
    omega
  | true =>
    have sign' : b.negative = false := by
      rw [sign] at opposite
      exact Bool.eq_false_of_not_eq_true (Ne.symm opposite)
    rw [sign, sign', if_pos rfl, if_neg Bool.false_ne_true] at large
    omega

end Scaled

end TreeQuery
