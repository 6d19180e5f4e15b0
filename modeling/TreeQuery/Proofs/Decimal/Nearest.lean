import TreeQuery.Proofs.Decimal.ReadBack

/-!
# The nearest double

Rounding drops the bits that do not fit, and what it drops decides whether the rest goes up by one.
A natural number becomes the multiple of a power of two that is nearest to it, and no double is
nearer: doubles of that size are such multiples, and smaller ones are farther away.

## Main definitions

* `Dyadic.value` — the number itself
* `IsNearest` — a double such that none is nearer to a number

## Main statements

* `Binary64.roundWithAccuracy_eq` — rounding in general
* `isNearest_ofNat` — the double of a natural number is nearest to it
-/

namespace TreeQuery

/-- The number itself. -/
def Dyadic.value (d : Dyadic) : ℚ :=
  (if d.negative then -(d.numerator : ℚ) else d.numerator) / d.denominator

/-- The double is finite, and none is nearer to the number. If another one is as near, the mantissa
of this one is even. -/
def IsNearest (x : Float) (r : ℚ) : Prop :=
  ∃ d, Dyadic.ofFloat? x = some d ∧ ∀ y d', Dyadic.ofFloat? y = some d' →
    |d.value - r| ≤ |d'.value - r| ∧
      (|d'.value - r| = |d.value - r| → d'.value = d.value ∨ d.mantissa % 2 = 0)

namespace Binary64

open Float.Model (Format UnpackedFloat totalExponent)
open Float.Model.UnpackedFloat

variable {s : Sign} {m : Nat} {e : Int}

/-! ### Dropping bits -/

theorem lowest_eq : format.minExponent = -1074 := by
  decide

theorem shiftRight_succ (em : ExtendedMantissa) (k : Nat) :
    em >>> (k + 1) = (em >>> k).shiftRightOne := rfl

theorem shiftRight_add (em : ExtendedMantissa) (j k : Nat) : em >>> (j + k) = em >>> j >>> k := by
  induction k with
  | zero => rfl
  | succ k ih => rw [← Nat.add_assoc, shiftRight_succ, shiftRight_succ, ih]

theorem mantissa_shiftRight (em : ExtendedMantissa) (k : Nat) :
    (em >>> k).mantissa = em.mantissa / 2 ^ k := by
  induction k with
  | zero => exact (Nat.div_one _).symm
  | succ k ih =>
    rw [shiftRight_succ, ExtendedMantissa.shiftRightOne, ih, Nat.div_div_eq_div_mul, Nat.pow_succ]

/-- The first bit that is dropped is kept apart, the others leave a trace if one of them is set. -/
theorem shiftRight_exact (m k : Nat) :
    (⟨m, false, false⟩ : ExtendedMantissa) >>> (k + 1) =
      ⟨m / 2 ^ (k + 1), m / 2 ^ k % 2 != 0, m % 2 ^ k != 0⟩ := by
  induction k with
  | zero =>
    simp [HShiftRight.hShiftRight, Nat.repeat, ExtendedMantissa.shiftRightOne, Nat.mod_one]
  | succ k ih =>
    -- The bit that was the first one to be dropped is now one of the others.
    have traces : (m / 2 ^ k % 2 != 0 || m % 2 ^ k != 0) = (m % 2 ^ (k + 1) != 0) := by
      have split : m % 2 ^ (k + 1) = m % 2 ^ k + 2 ^ k * (m / 2 ^ k % 2) := by
        rw [Nat.pow_succ, Nat.mod_mul]
      rw [Bool.eq_iff_iff, split]
      simp [Nat.add_eq_zero_iff, or_comm, imp_iff_or_not]
    rw [shiftRight_succ, ih, ExtendedMantissa.shiftRightOne, traces, Nat.div_div_eq_div_mul,
      ← Nat.pow_succ]

theorem mantissa_ofMantissaAndAccuracy (m : Nat) (accuracy : Accuracy) :
    (ExtendedMantissa.ofMantissaAndAccuracy m accuracy).mantissa = m := by
  cases accuracy with
  | exact => rfl
  | inexact order => cases order <;> rfl

/-- The first bit that is dropped is a half. -/
theorem roundedMantissa_mk (m : Nat) (first others : Bool) :
    (ExtendedMantissa.mk m first others).roundedMantissa =
      if first then if others then m + 1 else m + m % 2 else m := by
  cases first <;> cases others <;> rfl

theorem roundedMantissa_bounds (em : ExtendedMantissa) :
    em.mantissa ≤ em.roundedMantissa ∧ em.roundedMantissa ≤ em.mantissa + 1 := by
  obtain ⟨m, first, others⟩ := em
  rw [roundedMantissa_mk]
  show m ≤ _ ∧ _ ≤ m + 1
  split
  · split <;> omega
  · omega

/-! ### Rounding in general -/

/-- The bits that are left are no more than fit. -/
theorem div_two_pow_lt (m : Nat) (e : Int) :
    m / 2 ^ (format.targetExponent (totalExponent m e) - e).toNat < 2 ^ 53 := by
  rw [Nat.div_lt_iff_lt_mul (Nat.two_pow_pos _), ← Nat.pow_add]
  refine Nat.lt_log2_self.trans_le (Nat.pow_le_pow_right (by decide) ?_)
  rw [Format.targetExponent, totalExponent, mantissaBits_eq]
  omega

/-- What fits needs no second shift. -/
theorem shiftToTargetExponent_of_lt (lt : m < 2 ^ 53) (least : -1074 ≤ e) :
    shiftToTargetExponent format m e .exact = (⟨m, false, false⟩, e) := by
  have short : m.log2 < 53 := by
    by_cases zero : m = 0
    · rw [zero]
      decide
    · exact (Nat.log2_lt zero).mpr lt
  have amount : (format.targetExponent (totalExponent m e) - e).toNat = 0 := by
    rw [Format.targetExponent, totalExponent, mantissaBits_eq, lowest_eq]
    omega
  rw [shiftToTargetExponent, shiftToExponent, amount]
  exact Prod.ext rfl (Int.add_zero e)

/-- A mantissa with one bit too many ends in a zero. -/
theorem shiftToTargetExponent_two_pow (least : -1074 ≤ e) :
    shiftToTargetExponent format (2 ^ 53) e .exact = (⟨2 ^ 52, false, false⟩, e + 1) := by
  have amount : (format.targetExponent (totalExponent (2 ^ 53) e) - e).toNat = 1 := by
    rw [Format.targetExponent, totalExponent, mantissaBits_eq, lowest_eq, Nat.log2_two_pow]
    omega
  rw [shiftToTargetExponent, shiftToExponent, amount]
  rfl

/-- Rounding keeps the mantissa that is left after the shift, and shifts again if there is one bit
too many. -/
theorem roundWithAccuracy_eq (s : Sign) (m : Nat) (e : Int) (accuracy : Accuracy) {r : Nat}
    {e₁ : Int}
    (rounded : (ExtendedMantissa.ofMantissaAndAccuracy m accuracy >>>
      (format.targetExponent (totalExponent m e) - e).toNat).roundedMantissa = r)
    (exponent : max e (format.targetExponent (totalExponent m e)) = e₁) :
    r ≤ 2 ^ 53 ∧ roundWithAccuracy format s m e accuracy =
      if h : r = 0 then .zero s
      else if r < 2 ^ 53 then .finite s r e₁ (Nat.pos_of_ne_zero h)
      else .finite s (2 ^ 52) (e₁ + 1) (by decide) := by
  have least : -1074 ≤ e₁ := by
    rw [← exponent, Format.targetExponent, lowest_eq]
    omega
  have le : r ≤ 2 ^ 53 := by
    have bound := div_two_pow_lt m e
    have step := (roundedMantissa_bounds (ExtendedMantissa.ofMantissaAndAccuracy m accuracy >>>
      (format.targetExponent (totalExponent m e) - e).toNat)).2
    rw [rounded, mantissa_shiftRight, mantissa_ofMantissaAndAccuracy] at step
    omega
  refine ⟨le, ?_⟩
  have first : (shiftToTargetExponent format m e accuracy).1.roundedMantissa = r := rounded
  have second : (shiftToTargetExponent format m e accuracy).2 = e₁ := by
    rw [← exponent, shiftToTargetExponent, shiftToExponent]
    simp only
    omega
  simp only [roundWithAccuracy, first, second]
  -- The second shift has nothing to do, unless rounding up has made one bit more.
  rcases Nat.lt_or_eq_of_le le with lt | rfl
  · simp only [shiftToTargetExponent_of_lt lt least, if_pos lt]
  · simp only [shiftToTargetExponent_two_pow least]
    rfl

/-! ### The nearest multiple -/

/-- The rounded mantissa of a natural number from which `k + 1` bits were dropped. -/
def roundedTo (k n : Nat) : Nat :=
  ((⟨n, false, false⟩ : ExtendedMantissa) >>> (k + 1)).roundedMantissa

/-- How far the multiples are from a number that lies between two of them. -/
theorem distance_cases {unit rest : Int} (nonneg : 0 ≤ rest) (lt : rest < unit) (steps : Int) :
    steps ≤ -1 ∧ unit + rest ≤ |steps * unit - rest| ∨
      steps = 0 ∧ |steps * unit - rest| = rest ∨
      steps = 1 ∧ |steps * unit - rest| = unit - rest ∨
      2 ≤ steps ∧ 2 * unit - rest ≤ |steps * unit - rest| := by
  rcases lt_trichotomy steps 0 with below | rfl | above
  · have far : steps * unit ≤ -unit := by nlinarith
    rw [abs_of_neg (by omega)]
    exact .inl ⟨by omega, by omega⟩
  · rw [Int.zero_mul, Int.zero_sub, abs_neg, abs_of_nonneg nonneg]
    exact .inr (.inl ⟨rfl, rfl⟩)
  · rcases lt_or_ge steps 2 with one | many
    · obtain rfl : steps = 1 := by omega
      rw [Int.one_mul, abs_of_pos (by omega)]
      exact .inr (.inr (.inl ⟨rfl, rfl⟩))
    · have far : 2 * unit ≤ steps * unit := by nlinarith
      rw [abs_of_pos (by omega)]
      exact .inr (.inr (.inr ⟨many, by omega⟩))

/-- Between two multiples, the one that is not beyond the half is the nearest of all. -/
theorem nearest_multiple {unit rest : Int} {q c : Nat} (nonneg : 0 ≤ rest) (lt : rest < unit)
    (side : c = q ∧ 2 * rest ≤ unit ∨ c = q + 1 ∧ unit ≤ 2 * rest)
    (even : 2 * rest = unit → c % 2 = 0) (z : Int) :
    |c * unit - (q * unit + rest)| ≤ |z * unit - (q * unit + rest)| ∧
      (|z * unit - (q * unit + rest)| = |c * unit - (q * unit + rest)| → z = c ∨ c % 2 = 0) := by
  have steps (y : Int) : y * unit - (q * unit + rest) = (y - q) * unit - rest := by ring
  have far := distance_cases nonneg lt (z - q)
  have near := distance_cases nonneg lt (c - q)
  rw [steps, steps]
  omega

/-- What is dropped, a half if the first bit is set and a rest that is less than a half, decides
about the last bit that is kept. -/
theorem roundedMantissa_cases {half first rest : Nat} (q : Nat) (bit : first < 2)
    (lt : rest < half) :
    ((ExtendedMantissa.mk q (first != 0) (rest != 0)).roundedMantissa = q ∧
          2 * (half * first + rest) ≤ 2 * half ∨
        (ExtendedMantissa.mk q (first != 0) (rest != 0)).roundedMantissa = q + 1 ∧
          2 * half ≤ 2 * (half * first + rest)) ∧
      (2 * (half * first + rest) = 2 * half →
        (ExtendedMantissa.mk q (first != 0) (rest != 0)).roundedMantissa % 2 = 0) ∧
      half * first + rest < 2 * half := by
  rw [roundedMantissa_mk]
  rcases (by omega : first = 0 ∨ first = 1) with rfl | rfl
  · have unset : ((0 : Nat) != 0) = false := rfl
    simp only [unset, Bool.false_eq_true, if_false]
    exact ⟨.inl ⟨trivial, by omega⟩, fun tie => by omega, by omega⟩
  · have set : ((1 : Nat) != 0) = true := rfl
    rw [set]
    by_cases exact_half : rest = 0
    · -- Exactly a half goes to the even one, which may be either.
      simp only [exact_half, bne_self_eq_false, if_true, Bool.false_eq_true, if_false]
      exact ⟨by omega, fun _ => by omega, by omega⟩
    · simp only [bne_iff_ne.mpr exact_half, if_true]
      exact ⟨.inr ⟨trivial, by omega⟩, fun tie => by omega, by omega⟩

/-- Rounding goes to the nearest multiple of a power of two, and to the even one of two that are
equally near. -/
theorem roundedTo_nearest (k n : Nat) (z : Int) :
    |(roundedTo k n : Int) * 2 ^ (k + 1) - n| ≤ |z * 2 ^ (k + 1) - n| ∧
      (|z * 2 ^ (k + 1) - n| = |(roundedTo k n : Int) * 2 ^ (k + 1) - n| →
        z = roundedTo k n ∨ roundedTo k n % 2 = 0) := by
  rw [roundedTo, shiftRight_exact]
  -- The number is `q` wholes, perhaps a half, and a rest.
  obtain ⟨half, half_eq⟩ : ∃ half : Nat, half = 2 ^ k := ⟨_, rfl⟩
  obtain ⟨q, q_eq⟩ : ∃ q, q = n / 2 ^ (k + 1) := ⟨_, rfl⟩
  obtain ⟨first, first_eq⟩ : ∃ first, first = n / 2 ^ k % 2 := ⟨_, rfl⟩
  obtain ⟨rest, rest_eq⟩ : ∃ rest, rest = n % 2 ^ k := ⟨_, rfl⟩
  have bit : first < 2 := first_eq ▸ Nat.mod_lt _ (by decide)
  have lt : rest < half := by
    rw [rest_eq, half_eq]
    exact Nat.mod_lt _ (Nat.two_pow_pos k)
  have unit : (2 : Int) ^ (k + 1) = 2 * half := by
    rw [half_eq]
    push_cast
    ring
  have sum : (n : Int) = q * (2 * half) + (half * first + rest) := by
    have whole := Nat.div_add_mod n (2 ^ (k + 1))
    have dropped : n % 2 ^ (k + 1) = n % 2 ^ k + 2 ^ k * (n / 2 ^ k % 2) := by
      rw [Nat.pow_succ, Nat.mod_mul]
    rw [dropped, ← q_eq, ← first_eq, ← rest_eq, Nat.pow_succ, ← half_eq] at whole
    rw [← whole]
    push_cast
    ring
  obtain ⟨side, even, below⟩ := roundedMantissa_cases q bit lt
  rw [← q_eq, ← first_eq, ← rest_eq, unit, sum]
  refine nearest_multiple (by positivity) (by exact_mod_cast below) ?_ ?_ z
  · exact_mod_cast side
  · exact_mod_cast even

/-! ### Natural numbers -/

/-- A natural number with more bits than fit, and 53 zeros behind it, is rounded to 53 bits. -/
theorem roundWithAccuracy_natural {k n : Nat} (log : n.log2 = 53 + k)
    (bound : k ≤ 969 ∨ k = 970 ∧ roundedTo k n < 2 ^ 53) :
    ∃ M E, ∃ h : Canonical M E, 0 ≤ E ∧
      roundWithAccuracy format .positive (n * 2 ^ 53) (-53) .exact = .finite .positive M E h.pos ∧
      M * 2 ^ E.toNat = roundedTo k n * 2 ^ (k + 1) ∧ (roundedTo k n % 2 = 0 → M % 2 = 0) := by
  have nonzero : n ≠ 0 := by
    rintro rfl
    simp at log
    omega
  have size : format.targetExponent (totalExponent (n * 2 ^ 53) (-53)) = k + 1 := by
    rw [Format.targetExponent, totalExponent, log2_mul_two_pow (Nat.pos_of_ne_zero nonzero), log,
      mantissaBits_eq, lowest_eq]
    omega
  have shifted : (ExtendedMantissa.ofMantissaAndAccuracy (n * 2 ^ 53) .exact >>>
      (format.targetExponent (totalExponent (n * 2 ^ 53) (-53)) - (-53)).toNat).roundedMantissa =
        roundedTo k n := by
    have amount : ((k : Int) + 1 - (-53)).toNat = 53 + (k + 1) := by omega
    have zeros : (⟨n * 2 ^ 53, false, false⟩ : ExtendedMantissa) >>> 53 = ⟨n, false, false⟩ :=
      repeat_shiftRightOne n 53
    rw [size, amount, shiftRight_add, ExtendedMantissa.ofMantissaAndAccuracy, zeros, roundedTo]
  have long : 2 ^ 52 ≤ roundedTo k n := by
    have lower := Nat.log2_self_le nonzero
    rw [log] at lower
    refine Nat.le_trans ?_ (roundedMantissa_bounds _).1
    rw [mantissa_shiftRight, Nat.le_div_iff_mul_le (Nat.two_pow_pos _), ← Nat.pow_add,
      Nat.add_comm k, ← Nat.add_assoc]
    exact lower
  have exponent :
      max (-53) (format.targetExponent (totalExponent (n * 2 ^ 53) (-53))) = k + 1 := by
    rw [size]
    omega
  obtain ⟨short, rounds⟩ :=
    roundWithAccuracy_eq .positive (n * 2 ^ 53) (-53) .exact shifted exponent
  rw [rounds, dif_neg (by omega)]
  rcases Nat.lt_or_eq_of_le short with lt | full
  · refine ⟨roundedTo k n, k + 1, ⟨by omega, lt, by omega, by omega, .inl long⟩, by omega,
      if_pos lt, rfl, id⟩
  · -- Rounding up has made a power of two.
    refine ⟨2 ^ 52, k + 1 + 1, ⟨by decide, by decide, by omega, by omega, .inl le_rfl⟩, by omega,
      if_neg (by omega), ?_, fun _ => by decide⟩
    have exponent' : (k + 1 + 1 : Int).toNat = k + 2 := by omega
    rw [full, exponent', ← Nat.pow_add, ← Nat.pow_add]
    congr 1
    omega

/-- A natural number times a power of ten gets 53 zeros behind it and is rounded. -/
theorem ofScientific_natural {n k : Nat} (pos : 0 < n) (le : k ≤ 2048) :
    ofScientific format n k =
      roundWithAccuracy format .positive (n * 10 ^ k * 2 ^ 53) (-53) .exact := by
  have product : (n <<< 53) * 10 ^ (k : Int).toNat = n * 10 ^ k * 2 ^ 53 := by
    rw [Nat.shiftLeft_eq, Int.toNat_natCast]
    ring
  rw [ofScientific, dif_neg (Nat.ne_of_gt pos), exponentBits_eq, if_neg (by omega),
    if_neg (by omega), if_pos (by omega), mul, mantissaBits_eq, product, Int.add_zero]
  rfl

/-- A natural number with more bits than fit is rounded to 53 bits. -/
theorem ofNat_of_long {k n : Nat} (log : n.log2 = 53 + k)
    (bound : k ≤ 969 ∨ k = 970 ∧ roundedTo k n < 2 ^ 53) :
    ∃ M E, ∃ h : Canonical M E, 0 ≤ E ∧
      Float.ofNat n = ofParts (.finite .positive M E h.pos) ∧
      M * 2 ^ E.toNat = roundedTo k n * 2 ^ (k + 1) ∧ (roundedTo k n % 2 = 0 → M % 2 = 0) := by
  obtain ⟨M, E, h, whole, rounds, value, even⟩ := roundWithAccuracy_natural log bound
  refine ⟨M, E, h, whole, ?_, value, even⟩
  have nonzero : n ≠ 0 := by
    rintro rfl
    simp at log
    omega
  have large : ¬ (n < 2 ^ 53 ∧ 0 ≤ 22) := by
    rw [← Nat.log2_lt nonzero, log]
    omega
  have scientific := ofScientific_natural (Nat.pos_of_ne_zero nonzero) (Nat.zero_le 2048)
  rw [Nat.pow_zero, Nat.mul_one, rounds] at scientific
  have unfolded : Float.ofNat n = ofParts (ofScientific format n (0 : Nat)) := dif_neg large
  rw [unfolded, scientific]

/-- A natural number with few enough bits is a double. -/
theorem ofNat_of_short {n : Nat} (pos : 0 < n) (lt : n < 2 ^ 53) :
    Float.ofNat n = ofParts (.finite .positive (n * 2 ^ (52 - n.log2)) (-(52 - n.log2 : Nat))
      (canonical_of_lt pos lt).pos) := by
  have unfolded : Float.ofNat n =
      n.toUInt64.toFloat * Float.exactlyRepresentablePowersOfTen[0] := dif_pos ⟨lt, by decide⟩
  have canonical := canonical_of_lt pos lt
  rw [unfolded, parts_mul, parts_toFloat pos lt, parts_one,
    mul_exact canonical _ _ rfl (by omega)]

end Binary64

namespace Dyadic

open Binary64
open Float.Model.UnpackedFloat

variable {x : Float} {d : Dyadic} {m : Nat} {e : Int}

/-- The magnitude with the power of two as it is. -/
theorem value_eq (negative : Bool) (m : Nat) (e : Int) :
    (⟨negative, m, e⟩ : Dyadic).value = (if negative then -(m * 2 ^ e) else m * 2 ^ e : ℚ) := by
  have power : (2 : ℚ) ^ e.toNat / 2 ^ (-e).toNat = 2 ^ e := by
    rcases Int.le_total 0 e with nonneg | nonpos
    · obtain ⟨k, rfl⟩ := Int.eq_ofNat_of_zero_le nonneg
      simp
    · obtain ⟨k, rfl⟩ := Int.exists_eq_neg_ofNat nonpos
      simp
  have magnitude : ((m * 2 ^ e.toNat : Nat) : ℚ) / ((2 ^ (-e).toNat : Nat) : ℚ) = m * 2 ^ e := by
    rw [← power]
    push_cast
    ring
  cases negative with
  | false => exact magnitude
  | true => exact (neg_div _ _).trans (congrArg Neg.neg magnitude)

theorem ofFloat?_ofParts (h : Canonical m e) :
    ofFloat? (ofParts (.finite .positive m e h.pos)) = some ⟨false, m, e⟩ := by
  have same :
      (ofParts (.finite .positive m e h.pos)).toModel.unpack = .finite .positive m e h.pos :=
    unpack_pack_finite h .positive
  unfold ofFloat?
  rw [same]
  rfl

/-- Large doubles are multiples of a power of two. -/
theorem value_le_or_multiple (finite : ofFloat? x = some d) (k : Nat) :
    d.value ≤ 2 ^ (52 + k) ∨ ∃ z : Int, d.value = z * 2 ^ k := by
  have whole := whole_parts x
  rcases parts_of_ofFloat? finite with ⟨s, -, rfl⟩ | ⟨s, m, e, pos, same, rfl⟩
  · left
    rw [value_eq]
    simp
  · rw [same] at whole
    have canonical : Canonical m e := whole
    rw [value_eq]
    cases s with
    | negative =>
      left
      have nonneg : (0 : ℚ) ≤ m * 2 ^ e := by positivity
      have bound : (0 : ℚ) ≤ 2 ^ (52 + k) := by positivity
      exact (neg_nonpos.mpr nonneg).trans bound
    | positive =>
      rcases lt_or_ge e (k : Int) with small | large
      · left
        have mantissa : (m : ℚ) ≤ 2 ^ 53 := by exact_mod_cast canonical.lt.le
        have power : (2 : ℚ) ^ e ≤ 2 ^ ((k : Int) - 1) :=
          zpow_le_zpow_right₀ (by norm_num) (by omega)
        calc (m * 2 ^ e : ℚ) ≤ 2 ^ 53 * 2 ^ ((k : Int) - 1) :=
              mul_le_mul mantissa power (by positivity) (by positivity)
          _ = 2 ^ (52 + k) := by
              rw [zpow_sub_one₀ two_ne_zero, zpow_natCast, pow_add]
              ring
      · right
        obtain ⟨j, rfl⟩ : ∃ j : Nat, e = j + k := ⟨(e - k).toNat, by omega⟩
        refine ⟨m * 2 ^ j, ?_⟩
        rw [zpow_add₀ two_ne_zero, zpow_natCast, zpow_natCast]
        push_cast
        exact (mul_assoc _ _ _).symm

end Dyadic

open Binary64

/-- A double is nearest to its own value. -/
theorem isNearest_of_value_eq {x : Float} {d : Dyadic} {r : ℚ}
    (finite : Dyadic.ofFloat? x = some d) (value : d.value = r) : IsNearest x r := by
  refine ⟨d, finite, fun y d' _ => ?_⟩
  rw [value, sub_self, abs_zero, abs_eq_zero, sub_eq_zero]
  exact ⟨abs_nonneg _, .inl⟩

/-- The nearest multiple of a power of two is nearer than all doubles, if the number is large. -/
theorem roundedTo_nearest_double {k n : Nat} (large : 2 ^ (53 + k) ≤ n) {y : Float} {d : Dyadic}
    (finite : Dyadic.ofFloat? y = some d) :
    |(roundedTo k n * 2 ^ (k + 1) : ℚ) - n| ≤ |d.value - n| ∧
      (|d.value - n| = |(roundedTo k n * 2 ^ (k + 1) : ℚ) - n| →
        d.value = roundedTo k n * 2 ^ (k + 1) ∨ roundedTo k n % 2 = 0) := by
  have nearest (z : Int) : |(roundedTo k n * 2 ^ (k + 1) : ℚ) - n| ≤ |(z * 2 ^ (k + 1) : ℚ) - n| ∧
      (|(z * 2 ^ (k + 1) : ℚ) - n| = |(roundedTo k n * 2 ^ (k + 1) : ℚ) - n| →
        (z : ℚ) = roundedTo k n ∨ roundedTo k n % 2 = 0) := by
    exact_mod_cast roundedTo_nearest k n z
  rcases Dyadic.value_le_or_multiple finite (k + 1) with small | ⟨z, multiple⟩
  · -- The least of the multiples is in between.
    have least : ((2 ^ 52 : Int) : ℚ) * 2 ^ (k + 1) = 2 ^ (52 + (k + 1)) := by
      push_cast
      ring
    have large' : (2 ^ (52 + (k + 1)) : ℚ) ≤ n := by
      have same : 52 + (k + 1) = 53 + k := by omega
      rw [same]
      exact_mod_cast large
    obtain ⟨near, tie⟩ := nearest (2 ^ 52)
    have distance : |d.value - n| = -(d.value - n) :=
      abs_of_nonpos (sub_nonpos.mpr (small.trans large'))
    rw [least, abs_of_nonpos (sub_nonpos.mpr large')] at near tie
    rw [distance]
    refine ⟨by linarith, fun equal => ?_⟩
    -- A double as near as the rounded one is the least multiple itself.
    have reached : d.value = 2 ^ (52 + (k + 1)) := by linarith
    rcases tie (by linarith) with same | even
    · left
      rw [reached, ← least, ← same]
    · exact .inr even
  · obtain ⟨near, tie⟩ := nearest z
    rw [multiple]
    refine ⟨near, fun equal => (tie equal).imp_left fun same => ?_⟩
    rw [same]

/-- The double of a natural number that is not too large is nearest to it. -/
theorem isNearest_ofNat {n : Nat} (bound : n < 2 ^ 1023) : IsNearest (Float.ofNat n) n := by
  rcases Nat.eq_zero_or_pos n with rfl | pos
  · have zero : Dyadic.ofFloat? (Float.ofNat 0) = some ⟨false, 0, 0⟩ := by decide +kernel
    exact isNearest_of_value_eq zero (by simp [Dyadic.value_eq])
  rcases lt_or_ge n (2 ^ 53) with short | long
  · -- The number is a double.
    have canonical := canonical_of_lt pos short
    have finite := Dyadic.ofFloat?_ofParts canonical
    rw [← ofNat_of_short pos short] at finite
    refine isNearest_of_value_eq finite ?_
    rw [Dyadic.value_eq, zpow_neg, zpow_natCast]
    push_cast
    exact mul_div_cancel_right₀ _ (by positivity)
  · have nonzero := Nat.ne_of_gt pos
    obtain ⟨k, log⟩ : ∃ k, n.log2 = 53 + k :=
      ⟨n.log2 - 53, by have := (Nat.le_log2 nonzero).mpr long; omega⟩
    have small := (Nat.log2_lt nonzero).mpr bound
    obtain ⟨M, E, h, nonneg, rounds, value, even⟩ := ofNat_of_long log (.inl (by omega))
    have finite := Dyadic.ofFloat?_ofParts h
    rw [← rounds] at finite
    have value' : (⟨false, M, E⟩ : Dyadic).value = roundedTo k n * 2 ^ (k + 1) := by
      obtain ⟨j, rfl⟩ := Int.eq_ofNat_of_zero_le nonneg
      have exact_ : (M * 2 ^ j : ℚ) = roundedTo k n * 2 ^ (k + 1) := by exact_mod_cast value
      rw [Dyadic.value_eq]
      exact exact_
    refine ⟨_, finite, fun y d' finite' => ?_⟩
    have large : 2 ^ (53 + k) ≤ n := log ▸ Nat.log2_self_le nonzero
    obtain ⟨near, tie⟩ := roundedTo_nearest_double large finite'
    rw [value']
    exact ⟨near, fun equal => (tie equal).imp_right even⟩

end TreeQuery
