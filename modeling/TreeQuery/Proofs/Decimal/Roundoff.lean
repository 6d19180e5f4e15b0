import TreeQuery.Proofs.Decimal.Closeness
import TreeQuery.Proofs.Decimal.Nearest

/-!
# One rounding for each operation

An operation on doubles has the exact result at hand and rounds it to 53 bits: the bits that are
dropped are kept apart, as far as rounding needs them. So where doubles have all their bits, sums,
products and quotients are exact but for one rounding.

## Main definitions

* `HasValue x v` — the double is finite and this is its value
* `Normal v` — the size at which doubles have all their bits
* `Approximates k x r` — the value of the double and the number are `k` roundings apart
* `Binary64.Describes` — a mantissa and the two bits behind it, for a number that may have more bits

## Main statements

* `Binary64.roundWithAccuracy_close` — rounding is one rounding
* `HasValue.mul`, `HasValue.div`, `HasValue.add` — and so is each operation
* `Approximates.mul`, `Approximates.div`, `Approximates.add` — operations one after the other
* `exists_hasValue_ofNat` — natural numbers as doubles
-/

namespace TreeQuery

/-- The double is finite and this is its value. -/
def HasValue (x : Float) (v : ℚ) : Prop :=
  ∃ d, Dyadic.ofFloat? x = some d ∧ d.value = v

/-- The number has the size of doubles with all their bits, and rounding does not make it too large
for a double. -/
structure Normal (v : ℚ) : Prop where
  lower : 2 ^ (-1022 : ℤ) ≤ |v|
  upper : |v| < 2 ^ (1023 : ℤ)

namespace Binary64

open Float.Model (Format UnpackedFloat totalExponent)
open Float.Model.UnpackedFloat

variable {s s₁ s₂ : Sign} {m n : Nat} {e : Int} {em : ExtendedMantissa} {accuracy : Accuracy} {t : ℚ}

theorem parts_div (x y : Float) : x / y = ofParts (div format (parts x) (parts y)) := rfl

/-- The last bit as a number. -/
theorem cast_mod_two (n : Nat) : ((n % 2 : Nat) : ℚ) = 0 ∨ ((n % 2 : Nat) : ℚ) = 1 := by
  rcases Nat.mod_two_eq_zero_or_one n with even | odd
  · exact .inl (by rw [even, Nat.cast_zero])
  · exact .inr (by rw [odd, Nat.cast_one])

/-! ### What the dropped bits say -/

/-- The number is the mantissa, a half if the first bit behind it is set, and a rest that is less
than a half and leaves a trace in the other bit. -/
def Describes (em : ExtendedMantissa) (t : ℚ) : Prop :=
  ∃ rest, t = em.mantissa + (if em.roundBit then 1 / 2 else 0) + rest ∧ 0 ≤ rest ∧ rest < 1 / 2 ∧
    (em.stickyBit = false → rest = 0)

theorem describes_exact (m : Nat) : Describes (.ofMantissaAndAccuracy m .exact) m :=
  ⟨0, by simp [ExtendedMantissa.ofMantissaAndAccuracy], le_rfl, by norm_num, fun _ => rfl⟩

/-- The accuracy of a quotient speaks of its fraction. -/
theorem describes_fraction (q : Nat) (lt : m < n) :
    Describes (.ofMantissaAndAccuracy q (accuracyOfFraction m n)) (q + m / n) := by
  have pos : (0 : ℚ) < n := by exact_mod_cast Nat.zero_lt_of_lt lt
  have lt' : (m : ℚ) < n := by exact_mod_cast lt
  unfold accuracyOfFraction
  split
  · next none =>
    rw [none, Nat.cast_zero, zero_div, add_zero]
    exact describes_exact q
  · -- The accuracy tells on which side of a half the fraction is, or that it is there.
    cases side : compare (2 * m) n with
    | lt =>
      have below : (2 * m : ℚ) < n := by exact_mod_cast Nat.compare_eq_lt.mp side
      refine ⟨m / n, ?_, by positivity, ?_, fun sticky => by cases sticky⟩
      · simp [ExtendedMantissa.ofMantissaAndAccuracy]
      · rw [div_lt_div_iff₀ pos two_pos]
        linarith
    | eq =>
      have half : (2 * m : ℚ) = n := by exact_mod_cast Nat.compare_eq_eq.mp side
      refine ⟨0, ?_, le_rfl, by norm_num, fun _ => rfl⟩
      have half' : (m / n : ℚ) = 1 / 2 := by
        rw [div_eq_div_iff pos.ne' two_ne_zero]
        linarith
      simp [ExtendedMantissa.ofMantissaAndAccuracy, half']
    | gt =>
      have above : (n : ℚ) < 2 * m := by exact_mod_cast Nat.compare_eq_gt.mp side
      refine ⟨m / n - 1 / 2, ?_, ?_, ?_, fun sticky => by cases sticky⟩
      · simp [ExtendedMantissa.ofMantissaAndAccuracy]
      · rw [sub_nonneg, div_le_div_iff₀ two_pos pos]
        linarith
      · rw [sub_lt_iff_lt_add, div_lt_iff₀ pos]
        linarith

/-- A bit less: what was the first bit behind the mantissa is now a part of the trace. -/
theorem Describes.shiftRightOne (described : Describes em t) :
    Describes em.shiftRightOne (t / 2) := by
  obtain ⟨m, first, others⟩ := em
  obtain ⟨rest, rfl, nonneg, small, trace⟩ := described
  have whole : (m : ℚ) = 2 * (m / 2 : Nat) + (m % 2 : Nat) := by
    exact_mod_cast (Nat.div_add_mod m 2).symm
  refine ⟨(if first then 1 / 4 else 0) + rest / 2, ?_, ?_, ?_, ?_⟩
  · simp only [ExtendedMantissa.shiftRightOne, whole]
    rcases Nat.mod_two_eq_zero_or_one m with even | odd
    · cases first <;> simp [even] <;> ring
    · cases first <;> simp [odd] <;> ring
  · split <;> linarith
  · split <;> linarith
  · intro none
    obtain ⟨unset, unset'⟩ := Bool.or_eq_false_iff.mp none
    have unset : first = false := unset
    simp [unset, trace unset']

theorem Describes.shiftRight (described : Describes em t) (k : Nat) :
    Describes (em >>> k) (t / 2 ^ k) := by
  induction k with
  | zero => rwa [pow_zero, div_one]
  | succ k ih =>
    rw [shiftRight_succ, pow_succ, ← div_div]
    exact ih.shiftRightOne

/-- Rounding by these bits goes to the nearest integer. -/
theorem Describes.near (described : Describes em t) : |em.roundedMantissa - t| ≤ 1 / 2 := by
  obtain ⟨m, first, others⟩ := em
  obtain ⟨rest, rfl, nonneg, small, trace⟩ := described
  rw [roundedMantissa_mk, abs_le]
  cases first with
  | false =>
    simp only [Bool.false_eq_true, if_false]
    constructor <;> linarith
  | true =>
    cases others with
    | true =>
      simp only [if_true]
      push_cast
      constructor <;> linarith
    | false =>
      -- Exactly a half: the even one of two neighbours is a half away, like the other one.
      have none : rest = 0 := trace rfl
      have bit := cast_mod_two m
      simp only [if_true, Bool.false_eq_true, if_false, none]
      push_cast at bit ⊢
      rcases bit with even | odd
      · rw [even]
        norm_num
      · rw [odd]
        constructor <;> linarith

theorem Describes.bounds (described : Describes em t) : em.mantissa ≤ t ∧ t < em.mantissa + 1 := by
  obtain ⟨rest, rfl, nonneg, small, -⟩ := described
  constructor <;> split <;> linarith

/-- If 52 bits are left behind the first one, rounding the rest is one rounding of the number. -/
theorem Describes.close_shift (described : Describes em t) {k : Nat}
    (remaining : 2 ^ 52 ≤ em.mantissa / 2 ^ k) (e : Int) :
    Close 1 ((em >>> k).roundedMantissa * 2 ^ (e + k)) (t * 2 ^ e) := by
  have shifted := described.shiftRight k
  have large : (2 ^ 52 : ℚ) ≤ t / 2 ^ k := by
    have lower := shifted.bounds.1
    rw [mantissa_shiftRight] at lower
    have remaining' : (2 ^ 52 : ℚ) ≤ (em.mantissa / 2 ^ k : Nat) := by exact_mod_cast remaining
    exact remaining'.trans lower
  have scaled := (Close.of_near shifted.near large).mul (.refl 0 ((2 : ℚ) ^ (e + k)))
  have same : t / 2 ^ k * 2 ^ (e + k) = t * 2 ^ e := by
    rw [zpow_add₀ two_ne_zero, zpow_natCast]
    field_simp
  rwa [same] at scaled

/-! ### Rounding -/

/-- The size of a number says how many bits there are in front of the point. -/
theorem totalExponent_bounds (pos : 0 < m) (lower : m ≤ t) (upper : t < m + 1)
    (normal : Normal (t * 2 ^ e)) : -1021 ≤ totalExponent m e ∧ totalExponent m e ≤ 1023 := by
  have nonneg : 0 ≤ t * 2 ^ e := mul_nonneg ((Nat.cast_nonneg m).trans lower) (by positivity)
  obtain ⟨large, small⟩ := normal
  rw [abs_of_nonneg nonneg] at large small
  have least : (2 : ℚ) ^ m.log2 ≤ m := by exact_mod_cast Nat.log2_self_le (Nat.ne_of_gt pos)
  have greatest : (m + 1 : ℚ) ≤ 2 ^ (m.log2 + 1) := by
    exact_mod_cast Nat.succ_le_of_lt (Nat.lt_log2_self (n := m))
  have power (k : Nat) : (2 : ℚ) ^ k * 2 ^ e = 2 ^ (k + e) := by
    rw [zpow_add₀ two_ne_zero, zpow_natCast]
  have above : (2 : ℚ) ^ (m.log2 + e) ≤ t * 2 ^ e := by
    rw [← power]
    exact mul_le_mul_of_nonneg_right (least.trans lower) (by positivity)
  have below : t * 2 ^ e < 2 ^ ((m.log2 + 1 : Nat) + e) := by
    rw [← power]
    exact mul_lt_mul_of_pos_right (upper.trans_le greatest) (by positivity)
  have first := (zpow_lt_zpow_iff_right₀ one_lt_two).mp (large.trans_lt below)
  have second := (zpow_lt_zpow_iff_right₀ one_lt_two).mp (above.trans_lt small)
  rw [totalExponent]
  push_cast at first
  omega

/-- Rounding a mantissa with enough bits is one rounding of the number that it describes. -/
theorem roundWithAccuracy_close (s : Sign) (long : 2 ^ 52 ≤ m)
    (described : Describes (.ofMantissaAndAccuracy m accuracy) t) (normal : Normal (t * 2 ^ e)) :
    ∃ M E, ∃ h : Canonical M E, roundWithAccuracy format s m e accuracy = .finite s M E h.pos ∧
      Close 1 (M * 2 ^ E) (t * 2 ^ e) := by
  have pos : 0 < m := Nat.lt_of_lt_of_le (by decide) long
  obtain ⟨lower, upper⟩ := described.bounds
  rw [mantissa_ofMantissaAndAccuracy] at lower upper
  obtain ⟨least, greatest⟩ := totalExponent_bounds pos lower upper normal
  have bits := (Nat.le_log2 (Nat.ne_of_gt pos)).mpr long
  -- The mantissa has `k` bits too many. They are shifted out, and the exponent goes up by `k`.
  obtain ⟨k, log⟩ : ∃ k, m.log2 = 52 + k := ⟨m.log2 - 52, by omega⟩
  have target : format.targetExponent (totalExponent m e) = e + k := by
    rw [Format.targetExponent, mantissaBits_eq, lowest_eq]
    rw [totalExponent] at least ⊢
    omega
  have amount : (format.targetExponent (totalExponent m e) - e).toNat = k := by
    rw [target]
    omega
  have exponent : max e (format.targetExponent (totalExponent m e)) = e + k := by
    rw [target]
    omega
  obtain ⟨r, rounded⟩ : ∃ r, (ExtendedMantissa.ofMantissaAndAccuracy m accuracy >>>
      (format.targetExponent (totalExponent m e) - e).toNat).roundedMantissa = r := ⟨_, rfl⟩
  obtain ⟨short, rounds⟩ := roundWithAccuracy_eq s m e accuracy rounded exponent
  rw [amount] at rounded
  have remaining : 2 ^ 52 ≤ m / 2 ^ k := by
    rw [Nat.le_div_iff_mul_le (Nat.two_pow_pos k), ← Nat.pow_add, ← log]
    exact Nat.log2_self_le (Nat.ne_of_gt pos)
  have full : 2 ^ 52 ≤ r := by
    rw [← rounded]
    refine remaining.trans ?_
    have kept := (roundedMantissa_bounds
      (ExtendedMantissa.ofMantissaAndAccuracy m accuracy >>> k)).1
    rwa [mantissa_shiftRight, mantissa_ofMantissaAndAccuracy] at kept
  have close : Close 1 (r * 2 ^ (e + k)) (t * 2 ^ e) := by
    rw [← rounded]
    exact described.close_shift (by rwa [mantissa_ofMantissaAndAccuracy]) e
  rw [totalExponent] at least greatest
  rw [rounds, dif_neg (by omega)]
  -- Rounding up may carry into one more bit, which leaves a power of two.
  rcases Nat.lt_or_eq_of_le short with lt | carry
  · exact ⟨r, e + k, ⟨by omega, lt, by omega, by omega, .inl full⟩, if_pos lt, close⟩
  · refine ⟨2 ^ 52, e + k + 1, ⟨by decide, by decide, by omega, by omega, .inl le_rfl⟩,
      if_neg (by omega), ?_⟩
    have same : ((2 ^ 52 : Nat) : ℚ) * 2 ^ (e + k + 1) = r * 2 ^ (e + k) := by
      rw [carry, zpow_add_one₀ two_ne_zero]
      push_cast
      ring
    rwa [same]

/-- Rounding in general puts zeros behind a mantissa that is too short. -/
theorem round_close (s : Sign) (pos : 0 < m) (normal : Normal (m * 2 ^ e)) :
    ∃ M E, ∃ h : Canonical M E, UnpackedFloat.round format s m e = .finite s M E h.pos ∧
      Close 1 (M * 2 ^ E) (m * 2 ^ e) := by
  obtain ⟨least, greatest⟩ := totalExponent_bounds pos le_rfl (lt_add_one (m : ℚ)) normal
  rw [totalExponent] at least greatest
  have amount : (e - format.targetExponent (totalExponent m e)).toNat = 52 - m.log2 := by
    rw [Format.targetExponent, mantissaBits_eq, lowest_eq, totalExponent]
    omega
  have long : 2 ^ 52 ≤ m * 2 ^ (52 - m.log2) := by
    calc 2 ^ 52 ≤ 2 ^ (m.log2 + (52 - m.log2)) := Nat.pow_le_pow_right (by decide) (by omega)
      _ = 2 ^ m.log2 * 2 ^ (52 - m.log2) := Nat.pow_add ..
      _ ≤ m * 2 ^ (52 - m.log2) :=
        Nat.mul_le_mul_right _ (Nat.log2_self_le (Nat.ne_of_gt pos))
  have same : ((m * 2 ^ (52 - m.log2) : Nat) : ℚ) * 2 ^ (e - (52 - m.log2 : Nat)) = m * 2 ^ e := by
    rw [zpow_sub₀ two_ne_zero, zpow_natCast]
    push_cast
    field_simp
  have rounds := roundWithAccuracy_close s long (describes_exact _) (same ▸ normal)
  rw [same] at rounds
  simpa only [UnpackedFloat.round, decreaseExponent, amount, Nat.shiftLeft_eq] using rounds

/-! ### Signs -/

/-- The factor that a sign is. -/
def unit : Sign → ℚ
  | .negative => -1
  | .positive => 1

theorem unit_mul (s₁ s₂ : Sign) : unit (s₁ * s₂) = unit s₁ * unit s₂ := by
  cases s₁ <;> cases s₂ <;> decide +kernel

theorem unit_neg (s : Sign) : unit (-s) = -unit s := by
  cases s <;> decide +kernel

theorem div_eq_mul (s₁ s₂ : Sign) : s₁ / s₂ = s₁ * s₂ := by
  cases s₁ <;> cases s₂ <;> rfl

theorem unit_ne_zero (s : Sign) : unit s ≠ 0 := by
  cases s <;> norm_num [unit]

theorem unit_mul_self (s : Sign) : unit s * unit s = 1 := by
  cases s <;> decide +kernel

theorem abs_unit (s : Sign) : |unit s| = 1 := by
  cases s <;> simp [unit]

theorem apply_eq (s : Sign) (n : Int) : (s.apply n : ℚ) = unit s * n := by
  cases s <;> simp [unit, Sign.apply]

end Binary64

/-! ### The values of doubles -/

open Binary64
open Float.Model (Format UnpackedFloat totalExponent)
open Float.Model.UnpackedFloat

variable {x y : Float} {v w : ℚ} {s : Sign} {m : Nat} {e : Int}

theorem Dyadic.value_of_sign (s : Sign) (m : Nat) (e : Int) :
    (⟨s == .negative, m, e⟩ : Dyadic).value = unit s * (m * 2 ^ e) := by
  rw [Dyadic.value_eq]
  cases s <;> simp [unit]

theorem hasValue_iff : HasValue x v ↔ (∃ s, parts x = .zero s) ∧ v = 0 ∨
    ∃ s m e, ∃ h : Canonical m e, parts x = .finite s m e h.pos ∧ v = unit s * (m * 2 ^ e) := by
  constructor
  · rintro ⟨d, finite, rfl⟩
    have whole := whole_parts x
    rcases Dyadic.parts_of_ofFloat? finite with ⟨s, same, rfl⟩ | ⟨s, m, e, pos, same, rfl⟩
    · exact .inl ⟨⟨s, same⟩, by rw [Dyadic.value_of_sign]; simp⟩
    · rw [same] at whole
      exact .inr ⟨s, m, e, whole, same, Dyadic.value_of_sign s m e⟩
  · rintro (⟨⟨s, same⟩, rfl⟩ | ⟨s, m, e, h, same, rfl⟩)
    · refine ⟨⟨s == .negative, 0, 0⟩, ?_, by rw [Dyadic.value_of_sign]; simp⟩
      simp only [Dyadic.ofFloat?, same]
    · refine ⟨⟨s == .negative, m, e⟩, ?_, Dyadic.value_of_sign s m e⟩
      simp only [Dyadic.ofFloat?, same]

theorem HasValue.unique (first : HasValue x v) (second : HasValue x w) : v = w := by
  obtain ⟨d, finite, rfl⟩ := first
  obtain ⟨d', finite', rfl⟩ := second
  rw [Option.some.inj (finite.symm.trans finite')]

theorem hasValue_ofParts (s : Sign) (h : Canonical m e) :
    HasValue (ofParts (.finite s m e h.pos)) (unit s * (m * 2 ^ e)) :=
  hasValue_iff.mpr (.inr ⟨s, m, e, h, unpack_pack_finite h s, rfl⟩)

theorem value_ne_zero (h : Canonical m e) (s : Sign) : unit s * (m * 2 ^ e : ℚ) ≠ 0 := by
  have pos : (m : ℚ) ≠ 0 := by exact_mod_cast Nat.ne_of_gt h.pos
  have sign := unit_ne_zero s
  positivity

theorem abs_unit_mul (s : Sign) (r : ℚ) : |unit s * r| = |r| := by
  rw [abs_mul, abs_unit, one_mul]

theorem Normal.of_abs_eq (normal : Normal v) (same : |v| = |w|) : Normal w :=
  ⟨same ▸ normal.lower, same ▸ normal.upper⟩

/-- Doubles of normal size have all their bits. -/
theorem Binary64.Canonical.full_of_normal (h : Canonical m e)
    (normal : Normal (unit s * (m * 2 ^ e))) : 2 ^ 52 ≤ m := by
  rcases h.full with full | lowest
  · exact full
  · have large := normal.lower
    rw [abs_unit_mul, abs_of_nonneg (by positivity), lowest] at large
    have power : (2 : ℚ) ^ (-1022 : ℤ) = 2 ^ 52 * 2 ^ (-1074 : ℤ) := by
      rw [← zpow_natCast, ← zpow_add₀ two_ne_zero]
      norm_num
    rw [power] at large
    exact_mod_cast le_of_mul_le_mul_right large (by positivity)

theorem Normal.ne_zero (normal : Normal v) : v ≠ 0 := by
  rintro rfl
  have large := normal.lower
  rw [abs_zero] at large
  exact absurd large (not_le.mpr (by positivity))

/-- A double of normal size and its parts. -/
theorem HasValue.exists_parts (hasValue : HasValue x v) (normal : Normal v) :
    ∃ s m e, ∃ h : Canonical m e, parts x = .finite s m e h.pos ∧ v = unit s * (m * 2 ^ e) ∧
      2 ^ 52 ≤ m := by
  rcases hasValue_iff.mp hasValue with ⟨-, rfl⟩ | ⟨s, m, e, h, same, rfl⟩
  · exact absurd rfl normal.ne_zero
  · exact ⟨s, m, e, h, same, rfl, h.full_of_normal normal⟩

theorem HasValue.neg (hasValue : HasValue x v) : HasValue (-x) (-v) := by
  have opposite := parts_neg x
  rcases hasValue_iff.mp hasValue with ⟨⟨s, same⟩, rfl⟩ | ⟨s, m, e, h, same, rfl⟩
  · rw [same] at opposite
    exact hasValue_iff.mpr (.inl ⟨⟨-s, opposite⟩, neg_zero⟩)
  · rw [same] at opposite
    refine hasValue_iff.mpr (.inr ⟨-s, m, e, h, opposite, ?_⟩)
    rw [unit_neg, neg_mul]

/-- What rounding gives is a double with that value. -/
theorem exists_hasValue_of_close {u : UnpackedFloat} {r : ℚ} (given : x = ofParts u)
    (rounds : ∃ M E, ∃ h : Canonical M E, u = .finite s M E h.pos ∧ Close 1 (M * 2 ^ E) r) :
    ∃ v, HasValue x v ∧ Close 1 v (unit s * r) := by
  obtain ⟨M, E, h, rfl, close⟩ := rounds
  refine ⟨_, given ▸ hasValue_ofParts s h, ?_⟩
  have scaled := (Close.refl 0 (unit s)).mul close
  rwa [Nat.zero_add] at scaled

/-! ### Operations -/

/-- A product is exact but for one rounding. -/
theorem HasValue.mul (hx : HasValue x v) (hy : HasValue y w) (nv : Normal v) (nw : Normal w)
    (normal : Normal (v * w)) : ∃ r, HasValue (x * y) r ∧ Close 1 r (v * w) := by
  obtain ⟨s₁, m₁, e₁, h₁, same₁, rfl, full₁⟩ := hx.exists_parts nv
  obtain ⟨s₂, m₂, e₂, h₂, same₂, rfl, full₂⟩ := hy.exists_parts nw
  have product : unit s₁ * (m₁ * 2 ^ e₁) * (unit s₂ * (m₂ * 2 ^ e₂)) =
      unit (s₁ * s₂) * ((m₁ * m₂ : Nat) * 2 ^ (e₁ + e₂)) := by
    rw [unit_mul, zpow_add₀ two_ne_zero]
    push_cast
    ring
  have long : 2 ^ 52 ≤ m₁ * m₂ := full₁.trans (Nat.le_mul_of_pos_right _ h₂.pos)
  have given : x * y = ofParts
      (roundWithAccuracy format (s₁ * s₂) (m₁ * m₂) (e₁ + e₂) .exact) := by
    rw [parts_mul, same₁, same₂]
    rfl
  rw [product] at normal ⊢
  exact exists_hasValue_of_close given (roundWithAccuracy_close _ long (describes_exact _)
    (normal.of_abs_eq (abs_unit_mul _ _)))

/-- The quotient of two mantissas is computed to enough bits. -/
theorem Binary64.divCore_long {m₁ m₂ : Nat} {e₁ e₂ : Int} (h₁ : Canonical m₁ e₁)
    (h₂ : Canonical m₂ e₂) (full₁ : 2 ^ 52 ≤ m₁) (full₂ : 2 ^ 52 ≤ m₂)
    (large : (2 : ℚ) ^ (-1022 : ℤ) ≤ m₁ * 2 ^ e₁ / (m₂ * 2 ^ e₂)) :
    ∃ (n : Nat) (e : Int), divCore format m₁ e₁ m₂ e₂ =
        (m₁ * 2 ^ n / m₂, e, accuracyOfFraction (m₁ * 2 ^ n % m₂) m₂) ∧
      (m₁ * 2 ^ n / m₂ : ℚ) * 2 ^ e = m₁ * 2 ^ e₁ / (m₂ * 2 ^ e₂) ∧
      2 ^ 52 ≤ m₁ * 2 ^ n / m₂ := by
  have log {m : Nat} {e : Int} (h : Canonical m e) (full : 2 ^ 52 ≤ m) : m.log2 = 52 :=
    (Nat.log2_eq_iff (Nat.ne_of_gt h.pos)).mpr ⟨full, h.lt⟩
  obtain ⟨e, target⟩ : ∃ e, min (e₁ - e₂)
      (format.targetExponent (totalExponent m₁ e₁ - totalExponent m₂ e₂)) = e := ⟨_, rfl⟩
  have cases_ : e = e₁ - e₂ - 53 ∨ e ≤ -1074 := by
    rw [← target, Format.targetExponent, totalExponent, totalExponent, log h₁ full₁,
      log h₂ full₂, mantissaBits_eq, lowest_eq]
    omega
  obtain ⟨n, amount⟩ : ∃ n : Nat, e₁ - e₂ = e + n := by
    have := Int.min_le_left (e₁ - e₂)
      (format.targetExponent (totalExponent m₁ e₁ - totalExponent m₂ e₂))
    exact ⟨(e₁ - e₂ - e).toNat, by omega⟩
  have value : (m₁ * 2 ^ n / m₂ : ℚ) * 2 ^ e = m₁ * 2 ^ e₁ / (m₂ * 2 ^ e₂) := by
    have powers : (2 : ℚ) ^ e₁ = 2 ^ e₂ * (2 ^ e * 2 ^ n) := by
      rw [← zpow_natCast, ← zpow_add₀ two_ne_zero, ← zpow_add₀ two_ne_zero, ← amount]
      congr 1
      omega
    rw [powers]
    have pos : (m₂ : ℚ) ≠ 0 := by exact_mod_cast Nat.ne_of_gt h₂.pos
    field_simp
  refine ⟨n, e, ?_, value, ?_⟩
  · have shift : (e₁ - e₂ - e).toNat = n := by omega
    simp only [divCore, target, shift, Nat.shiftLeft_eq]
  · rw [Nat.le_div_iff_mul_le h₂.pos]
    rcases cases_ with wide | lowest
    · obtain rfl : n = 53 := by omega
      calc 2 ^ 52 * m₂ ≤ 2 ^ 52 * 2 ^ 53 := Nat.mul_le_mul_left _ h₂.lt.le
        _ ≤ m₁ * 2 ^ 53 := Nat.mul_le_mul_right _ full₁
    · -- At the lowest exponent the size of the quotient says it.
      have pos : (0 : ℚ) < m₂ := by exact_mod_cast h₂.pos
      have power : (2 : ℚ) ^ (52 : ℤ) * 2 ^ e ≤ 2 ^ (-1022 : ℤ) := by
        rw [← zpow_add₀ two_ne_zero]
        exact zpow_le_zpow_right₀ one_le_two (by omega)
      rw [← value] at large
      have quotient := le_of_mul_le_mul_right (power.trans large) (by positivity)
      rw [le_div_iff₀ pos] at quotient
      exact_mod_cast quotient

/-- A quotient is exact but for one rounding. -/
theorem HasValue.div (hx : HasValue x v) (hy : HasValue y w) (nv : Normal v) (nw : Normal w)
    (normal : Normal (v / w)) : ∃ r, HasValue (x / y) r ∧ Close 1 r (v / w) := by
  obtain ⟨s₁, m₁, e₁, h₁, same₁, rfl, full₁⟩ := hx.exists_parts nv
  obtain ⟨s₂, m₂, e₂, h₂, same₂, rfl, full₂⟩ := hy.exists_parts nw
  -- The signs go apart from the magnitudes.
  have quotient : unit s₁ * (m₁ * 2 ^ e₁) / (unit s₂ * (m₂ * 2 ^ e₂)) =
      unit (s₁ * s₂) * (m₁ * 2 ^ e₁ / (m₂ * 2 ^ e₂)) := by
    have inverse : unit s₁ / unit s₂ = unit s₁ * unit s₂ := by
      rw [div_eq_iff (unit_ne_zero s₂), mul_assoc, unit_mul_self, mul_one]
    rw [unit_mul, ← inverse, div_mul_div_comm]
  rw [quotient] at normal ⊢
  have normal' := normal.of_abs_eq (abs_unit_mul _ _)
  have large := normal'.lower
  rw [abs_of_nonneg (by positivity)] at large
  obtain ⟨n, e, core, value, long⟩ := divCore_long h₁ h₂ full₁ full₂ large
  have given : x / y = ofParts (roundWithAccuracy format (s₁ * s₂) (m₁ * 2 ^ n / m₂) e
      (accuracyOfFraction (m₁ * 2 ^ n % m₂) m₂)) := by
    rw [parts_div, same₁, same₂, UnpackedFloat.div, core, div_eq_mul]
  have pos : (m₂ : ℚ) ≠ 0 := by exact_mod_cast Nat.ne_of_gt h₂.pos
  have described := describes_fraction (m₁ * 2 ^ n / m₂) (Nat.mod_lt (m₁ * 2 ^ n) h₂.pos)
  -- Quotient and remainder together are the exact quotient.
  have whole : ((m₁ * 2 ^ n / m₂ : Nat) : ℚ) + (m₁ * 2 ^ n % m₂ : Nat) / m₂ =
      m₁ * 2 ^ n / m₂ := by
    have parts := Nat.div_add_mod (m₁ * 2 ^ n) m₂
    have parts' : (m₂ * (m₁ * 2 ^ n / m₂ : Nat) + (m₁ * 2 ^ n % m₂ : Nat) : ℚ) = m₁ * 2 ^ n := by
      exact_mod_cast parts
    rw [← parts']
    field_simp
  rw [whole] at described
  rw [← value] at normal' ⊢
  exact exists_hasValue_of_close given (roundWithAccuracy_close _ long described normal')

/-- The sum of two mantissas with a common exponent. -/
theorem Binary64.normalize_close (z : Int) (s : Sign) (normal : Normal (z * 2 ^ e)) :
    ∃ s' M E, ∃ h : Canonical M E, UnpackedFloat.normalize format z e s = .finite s' M E h.pos ∧
      Close 1 (unit s' * (M * 2 ^ E)) (z * 2 ^ e) := by
  have some : z ≠ 0 := by
    rintro rfl
    exact normal.ne_zero (by simp)
  -- The rounded magnitude with the sign of the sum.
  have signed (s' : Sign) (n : Nat) (sum : z = s'.apply n)
      (rounds : UnpackedFloat.normalize format z e s = UnpackedFloat.round format s' n e) :
      ∃ s' M E, ∃ h : Canonical M E, UnpackedFloat.normalize format z e s = .finite s' M E h.pos ∧
        Close 1 (unit s' * (M * 2 ^ E)) (z * 2 ^ e) := by
    have value : (z * 2 ^ e : ℚ) = unit s' * (n * 2 ^ e) := by
      rw [sum, apply_eq, mul_assoc]
      rfl
    have pos : 0 < n := by
      rw [Nat.pos_iff_ne_zero]
      rintro rfl
      cases s' <;> exact some sum
    rw [value] at normal ⊢
    obtain ⟨M, E, h, same, close⟩ := round_close s' pos (normal.of_abs_eq (abs_unit_mul _ _))
    have scaled := (Close.refl 0 (unit s')).mul close
    rw [Nat.zero_add] at scaled
    exact ⟨s', M, E, h, rounds.trans same, scaled⟩
  rcases Int.lt_or_gt_of_ne some with negative | positive
  · refine signed .negative (-z).toNat ?_ ?_
    · have nonneg : ((-z).toNat : Int) = -z := Int.toNat_of_nonneg (by omega)
      rw [Sign.apply, nonneg, neg_neg]
    · rw [UnpackedFloat.normalize, Int.compare_eq_lt.mpr negative]
  · refine signed .positive z.toNat ?_ ?_
    · exact (Int.toNat_of_nonneg (by omega)).symm
    · rw [UnpackedFloat.normalize, Int.compare_eq_gt.mpr positive]

/-- A sum is exact but for one rounding. -/
theorem HasValue.add (hx : HasValue x v) (hy : HasValue y w) (normal : Normal (v + w)) :
    ∃ r, HasValue (x + y) r ∧ Close 1 r (v + w) := by
  have parts_add : x + y = ofParts (UnpackedFloat.add format (parts x) (parts y)) := rfl
  -- A zero is left out. Other summands are brought to the smaller of the exponents, which is exact,
  -- and the sum is rounded once.
  rcases hasValue_iff.mp hx with ⟨⟨s₁, same₁⟩, rfl⟩ | ⟨s₁, m₁, e₁, h₁, same₁, rfl⟩
  · rcases hasValue_iff.mp hy with ⟨-, rfl⟩ | ⟨s₂, m₂, e₂, h₂, same₂, rfl⟩
    · exact absurd (add_zero 0) normal.ne_zero
    · refine ⟨_, ?_, .of_eq (zero_add _).symm⟩
      rw [parts_add, same₁, same₂]
      exact hasValue_ofParts s₂ h₂
  · rcases hasValue_iff.mp hy with ⟨⟨s₂, same₂⟩, rfl⟩ | ⟨s₂, m₂, e₂, h₂, same₂, rfl⟩
    · refine ⟨_, ?_, .of_eq (add_zero _).symm⟩
      rw [parts_add, same₁, same₂]
      exact hasValue_ofParts s₁ h₁
    · obtain ⟨e, least⟩ : ∃ e, min e₁ e₂ = e := ⟨_, rfl⟩
      obtain ⟨j, rfl⟩ : ∃ j : Nat, e₁ = e + j := ⟨(e₁ - e).toNat, by omega⟩
      obtain ⟨k, rfl⟩ : ∃ k : Nat, e₂ = e + k := ⟨(e₂ - e).toNat, by omega⟩
      have aligned (s : Sign) (m k : Nat) : unit s * (m * 2 ^ (e + k)) =
          (s.apply (m * 2 ^ k : Nat) : ℚ) * 2 ^ e := by
        rw [apply_eq, zpow_add₀ two_ne_zero, zpow_natCast]
        push_cast
        ring
      have sum : unit s₁ * (m₁ * 2 ^ (e + j)) + unit s₂ * (m₂ * 2 ^ (e + k)) =
          ((s₁.apply (m₁ * 2 ^ j : Nat) + s₂.apply (m₂ * 2 ^ k : Nat) : Int) : ℚ) * 2 ^ e := by
        rw [aligned, aligned]
        push_cast
        ring
      have given : x + y = ofParts (UnpackedFloat.normalize format
          (s₁.apply (m₁ * 2 ^ j : Nat) + s₂.apply (m₂ * 2 ^ k : Nat)) e .positive) := by
        have shift (k : Nat) : (e + k - e).toNat = k := by omega
        rw [parts_add, same₁, same₂]
        simp only [UnpackedFloat.add, least, decreaseExponent, shift, Nat.shiftLeft_eq]
      rw [sum] at normal ⊢
      obtain ⟨s, M, E, h, same, close⟩ := normalize_close _ .positive normal
      exact ⟨_, by rw [given, same]; exact hasValue_ofParts s h, close⟩

/-! ### Natural numbers -/

/-- A natural number with few enough bits is a double. -/
theorem hasValue_ofNat {n : Nat} (lt : n < 2 ^ 53) : HasValue (Float.ofNat n) n := by
  rcases Nat.eq_zero_or_pos n with rfl | pos
  · exact ⟨⟨false, 0, 0⟩, by decide +kernel, by simp [Dyadic.value_eq]⟩
  · have canonical := canonical_of_lt pos lt
    have value : (n : ℚ) = unit .positive *
        ((n * 2 ^ (52 - n.log2) : Nat) * 2 ^ (-(52 - n.log2 : Nat) : Int)) := by
      rw [zpow_neg, zpow_natCast]
      push_cast
      rw [mul_inv_cancel_right₀ (by positivity)]
      exact (one_mul _).symm
    rw [value, ofNat_of_short pos lt]
    exact hasValue_ofParts .positive canonical

/-- A natural number that is not too large is a double but for one rounding. -/
theorem exists_hasValue_ofNat {n : Nat} (bound : n < 2 ^ 1023) :
    ∃ v, HasValue (Float.ofNat n) v ∧ Close 1 v n := by
  rcases lt_or_ge n (2 ^ 53) with short | long
  · exact ⟨n, hasValue_ofNat short, .refl 1 _⟩
  · have nonzero : n ≠ 0 := by omega
    obtain ⟨k, log⟩ : ∃ k, n.log2 = 53 + k :=
      ⟨n.log2 - 53, by have := (Nat.le_log2 nonzero).mpr long; omega⟩
    have small := (Nat.log2_lt nonzero).mpr bound
    obtain ⟨M, E, h, nonneg, rounds, value, -⟩ := ofNat_of_long log (.inl (by omega))
    refine ⟨_, rounds ▸ hasValue_ofParts .positive h, ?_⟩
    obtain ⟨j, rfl⟩ := Int.eq_ofNat_of_zero_le nonneg
    have value' : unit .positive * (M * 2 ^ (j : Int)) =
        (roundedTo k n * 2 ^ (0 + ((k + 1 : Nat) : Int)) : ℚ) := by
      rw [zero_add, zpow_natCast, zpow_natCast]
      exact (one_mul _).trans (by exact_mod_cast value)
    have remaining : 2 ^ 52 ≤ n / 2 ^ (k + 1) := by
      have lower := Nat.log2_self_le nonzero
      have bits : n.log2 = 52 + (k + 1) := by omega
      rwa [Nat.le_div_iff_mul_le (Nat.two_pow_pos _), ← Nat.pow_add, ← bits]
    have close := (describes_exact n).close_shift remaining 0
    rw [zpow_zero, mul_one] at close
    rw [value']
    exact close

/-! ### Chains of operations -/

/-- The double is finite, and `k` roundings are between its value and the number. -/
def Approximates (k : ℕ) (x : Float) (r : ℚ) : Prop :=
  ∃ v, HasValue x v ∧ Close k v r

/-- The number has a size that neither a few operations nor roundings make too large or too small
for doubles. -/
structure Moderate (r : ℚ) : Prop where
  lower : 1 / 10 ^ 60 ≤ |r|
  upper : |r| ≤ 10 ^ 60

variable {j k : ℕ} {r u : ℚ}

theorem Moderate.of_bounds (lower : 1 / 10 ^ 60 ≤ r) (upper : r ≤ 10 ^ 60) : Moderate r := by
  have positive : 0 < r := lower.trans_lt' (by norm_num)
  constructor <;> rwa [abs_of_pos positive]

theorem Moderate.normal (moderate : Moderate r) (close : Close k v r) (few : k ≤ 1000) :
    Normal v := by
  obtain ⟨lower, upper⟩ := moderate
  have error := close.abs.error_le (few.trans (by norm_num))
  have few' : (k : ℚ) ≤ 1000 := by exact_mod_cast few
  -- That many roundings change a number by less than half of it.
  have little : ((k + 1 / 4 : ℚ) / 2 ^ 53) ≤ 1 / 2 := by
    rw [div_le_div_iff₀ (by positivity) (by positivity)]
    linarith
  have error' : |(|v| - |r|)| ≤ 1 / 2 * |r| := by
    rw [abs_abs] at error
    exact error.trans (mul_le_mul_of_nonneg_right little (abs_nonneg r))
  obtain ⟨below, above⟩ := abs_le.mp error'
  constructor
  · have small : (2 : ℚ) ^ (-1022 : ℤ) ≤ 2 ^ (-201 : ℤ) :=
      zpow_le_zpow_right₀ one_le_two (by norm_num)
    calc (2 : ℚ) ^ (-1022 : ℤ) ≤ 2 ^ (-201 : ℤ) := small
      _ ≤ 1 / 2 * (1 / 10 ^ 60) := by norm_num
      _ ≤ 1 / 2 * |r| := mul_le_mul_of_nonneg_left lower (by norm_num)
      _ ≤ |v| := by linarith
  · have large : (2 : ℚ) ^ (201 : ℤ) < 2 ^ (1023 : ℤ) :=
      zpow_lt_zpow_right₀ one_lt_two (by norm_num)
    calc |v| ≤ 2 * |r| := by linarith [abs_nonneg r]
      _ ≤ 2 * 10 ^ 60 := mul_le_mul_of_nonneg_left upper (by norm_num)
      _ ≤ 2 ^ (201 : ℤ) := by norm_num
      _ < 2 ^ (1023 : ℤ) := large

namespace Approximates

theorem mono (approximates : Approximates j x r) (le : j ≤ k) : Approximates k x r := by
  obtain ⟨v, hasValue, close⟩ := approximates
  exact ⟨v, hasValue, close.mono le⟩

theorem neg (approximates : Approximates k x r) : Approximates k (-x) (-r) := by
  obtain ⟨v, hasValue, close⟩ := approximates
  exact ⟨-v, hasValue.neg, close.neg⟩

theorem mul (hx : Approximates j x r) (hy : Approximates k y u) (few : j + k ≤ 1000)
    (left : Moderate r) (right : Moderate u) (moderate : Moderate (r * u)) :
    Approximates (1 + (j + k)) (x * y) (r * u) := by
  obtain ⟨v, hv, close⟩ := hx
  obtain ⟨w, hw, close'⟩ := hy
  have product := close.mul close'
  obtain ⟨z, hz, rounding⟩ := hv.mul hw (left.normal close (by omega))
    (right.normal close' (by omega)) (moderate.normal product few)
  exact ⟨z, hz, rounding.trans product⟩

theorem div (hx : Approximates j x r) (hy : Approximates k y u) (few : j + k ≤ 1000)
    (left : Moderate r) (right : Moderate u) (moderate : Moderate (r / u)) :
    Approximates (1 + (j + k)) (x / y) (r / u) := by
  obtain ⟨v, hv, close⟩ := hx
  obtain ⟨w, hw, close'⟩ := hy
  have quotient := close.div close'
  obtain ⟨z, hz, rounding⟩ := hv.div hw (left.normal close (by omega))
    (right.normal close' (by omega)) (moderate.normal quotient few)
  exact ⟨z, hz, rounding.trans quotient⟩

theorem add (hx : Approximates k x r) (hy : Approximates k y u) (few : k ≤ 1000)
    (sign : 0 ≤ r ∧ 0 ≤ u ∨ r ≤ 0 ∧ u ≤ 0) (moderate : Moderate (r + u)) :
    Approximates (1 + k) (x + y) (r + u) := by
  obtain ⟨v, hv, close⟩ := hx
  obtain ⟨w, hw, close'⟩ := hy
  have sum := close.add_of_sign close' sign
  obtain ⟨z, hz, rounding⟩ := hv.add hw (moderate.normal sum few)
  exact ⟨z, hz, rounding.trans sum⟩

end Approximates

end TreeQuery
