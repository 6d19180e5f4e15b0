import TreeQuery.Proofs.Decimal.Binary64

/-!
# Results that need no rounding

Where the exact result of an operation on doubles is a double, the operation gives it. The cases
here are those in which a decimal numeral is read: an integer, an integer times a power of ten, and
an integer divided by one.

## Main statements

* `Binary64.roundWithAccuracy_exact` — more bits than needed, all of them zero
* `Binary64.mul_exact`, `Binary64.div_exact` — products and quotients that are doubles
-/

namespace TreeQuery

namespace Binary64

open Float.Model (Format UnpackedFloat totalExponent)
open Float.Model.UnpackedFloat

variable {s : Sign} {m : Nat} {e : Int}

/-! ### Binary logarithms -/

theorem log2_mul_two_pow (pos : 0 < m) (k : Nat) : (m * 2 ^ k).log2 = m.log2 + k := by
  have nonzero := Nat.ne_of_gt pos
  rw [Nat.log2_eq_iff (Nat.ne_of_gt (Nat.mul_pos pos (Nat.two_pow_pos k)))]
  have lower := Nat.log2_self_le nonzero
  have upper := Nat.lt_log2_self (n := m)
  constructor
  · rw [Nat.pow_add]
    exact Nat.mul_le_mul_right _ lower
  · rw [Nat.add_right_comm, Nat.pow_add]
    exact Nat.mul_lt_mul_of_pos_right upper (Nat.two_pow_pos k)

/-- A product has at least the bits of its factors but one. -/
theorem log2_mul_le {n : Nat} (pos : 0 < m) (pos' : 0 < n) :
    (m * n).log2 ≤ m.log2 + n.log2 + 1 := by
  have product := Nat.mul_pos pos pos'
  have below : m * n < 2 ^ (m.log2 + n.log2 + 2) := by
    calc m * n < 2 ^ (m.log2 + 1) * 2 ^ (n.log2 + 1) :=
          Nat.mul_lt_mul'' Nat.lt_log2_self Nat.lt_log2_self
      _ = 2 ^ (m.log2 + n.log2 + 2) := by rw [← Nat.pow_add]; congr 1; omega
  have short := (Nat.log2_lt (Nat.ne_of_gt product)).mpr below
  omega

/-! ### Rounding -/

/-- The exponent of a canonical double is the one that its size asks for. -/
theorem targetExponent_eq (h : Canonical m e) :
    format.targetExponent (totalExponent m e) = e := by
  obtain ⟨pos, lt, least, greatest, full⟩ := h
  have nonzero := Nat.ne_of_gt pos
  have short : m.log2 < 53 := (Nat.log2_lt nonzero).mpr lt
  have lowest : format.minExponent = -1074 := by decide
  rw [Format.targetExponent, totalExponent, mantissaBits_eq, lowest]
  rcases full with long | rfl
  · have long' := (Nat.le_log2 nonzero).mpr long
    omega
  · omega

theorem repeat_shiftRightOne (m k : Nat) :
    k.repeat ExtendedMantissa.shiftRightOne ⟨m * 2 ^ k, false, false⟩ = ⟨m, false, false⟩ := by
  induction k generalizing m with
  | zero => simp [Nat.repeat]
  | succ k ih =>
    have twice : m * 2 ^ (k + 1) = m * 2 * 2 ^ k := by ring
    rw [Nat.repeat, twice, ih]
    simp [ExtendedMantissa.shiftRightOne]

theorem shiftToExponent_exact (m k : Nat) (e : Int) :
    shiftToExponent (m * 2 ^ k) (e - k) .exact e = (⟨m, false, false⟩, e) := by
  have amount : (e - (e - k)).toNat = k := by omega
  simp only [shiftToExponent, amount, Prod.mk.injEq]
  exact ⟨repeat_shiftRightOne m k, by omega⟩

/-- Bits beyond those of a canonical double are dropped if they are zero. -/
theorem roundWithAccuracy_exact (h : Canonical m e) (s : Sign) (k : Nat) :
    roundWithAccuracy format s (m * 2 ^ k) (e - k) .exact = .finite s m e h.pos := by
  have total : totalExponent (m * 2 ^ k) (e - k) = totalExponent m e := by
    rw [totalExponent, totalExponent, log2_mul_two_pow h.pos]
    push_cast
    ring
  have first :
      shiftToTargetExponent format (m * 2 ^ k) (e - k) .exact = (⟨m, false, false⟩, e) := by
    rw [shiftToTargetExponent, total, targetExponent_eq h, shiftToExponent_exact]
  have second : shiftToTargetExponent format m e .exact = (⟨m, false, false⟩, e) := by
    have same := shiftToExponent_exact m 0 e
    rw [Nat.pow_zero, Nat.mul_one, Int.natCast_zero, Int.sub_zero] at same
    rw [shiftToTargetExponent, targetExponent_eq h, same]
  simp only [roundWithAccuracy, first, ExtendedMantissa.roundedMantissa, ExtendedMantissa.accuracy,
    Accuracy.roundToNearestEven, second, dif_neg (Nat.ne_of_gt h.pos)]

/-- A product that is a double. -/
theorem mul_exact {m₁ m₂ k : Nat} {e₁ e₂ : Int} (h : Canonical m e) (pos₁ : 0 < m₁) (pos₂ : 0 < m₂)
    (product : m₁ * m₂ = m * 2 ^ k) (exponent : e₁ + e₂ = e - k) :
    mul format (.finite .positive m₁ e₁ pos₁) (.finite .positive m₂ e₂ pos₂) =
      .finite .positive m e h.pos := by
  rw [mul, product, exponent]
  exact roundWithAccuracy_exact h _ k

/-- A quotient that is a double. -/
theorem div_exact {m₁ m₂ a b : Nat} {e₁ e₂ : Int} (h : Canonical m e) (pos₁ : 0 < m₁)
    (pos₂ : 0 < m₂)
    (quotient : m₁ * 2 ^ a = m₂ * m * 2 ^ b) (exponent : e₁ - e₂ - e = a - b) :
    div format (.finite .positive m₁ e₁ pos₁) (.finite .positive m₂ e₂ pos₂) =
      .finite .positive m e h.pos := by
  -- The quotient is computed to at least as many bits as it has.
  have size : totalExponent m₁ e₁ - totalExponent m₂ e₂ ≤ totalExponent m e := by
    have logs := congrArg Nat.log2 quotient
    rw [log2_mul_two_pow pos₁, log2_mul_two_pow (Nat.mul_pos pos₂ h.pos)] at logs
    have bits := log2_mul_le pos₂ h.pos
    simp only [totalExponent]
    omega
  have target : min (e₁ - e₂)
      (format.targetExponent (totalExponent m₁ e₁ - totalExponent m₂ e₂)) ≤ e := by
    have monotone : format.targetExponent (totalExponent m₁ e₁ - totalExponent m₂ e₂) ≤
        format.targetExponent (totalExponent m e) := by
      simp only [Format.targetExponent]
      omega
    rw [targetExponent_eq h] at monotone
    omega
  obtain ⟨k, low⟩ : ∃ k : Nat, min (e₁ - e₂)
      (format.targetExponent (totalExponent m₁ e₁ - totalExponent m₂ e₂)) = e - k :=
    ⟨_, (Int.sub_sub_self e _).symm.trans (by rw [Int.toNat_of_nonneg (Int.sub_nonneg.mpr target)])⟩
  obtain ⟨n, shift⟩ : ∃ n : Nat, e₁ - e₂ - (e - k) = n := by
    have := Int.min_le_left (e₁ - e₂)
      (format.targetExponent (totalExponent m₁ e₁ - totalExponent m₂ e₂))
    exact ⟨(e₁ - e₂ - (e - k)).toNat, by omega⟩
  have whole : m₁ * 2 ^ n = m * 2 ^ k * m₂ := by
    apply Nat.eq_of_mul_eq_mul_right (Nat.two_pow_pos a)
    have balance : n + b = k + a := by omega
    calc m₁ * 2 ^ n * 2 ^ a = m₁ * 2 ^ a * 2 ^ n := by ring
      _ = m₂ * m * 2 ^ (n + b) := by rw [quotient, Nat.pow_add]; ring
      _ = m * 2 ^ k * m₂ * 2 ^ a := by rw [balance]; ring
  have core : divCore format m₁ e₁ m₂ e₂ = (m * 2 ^ k, e - k, .exact) := by
    simp only [divCore, low, shift, Int.toNat_natCast, Nat.shiftLeft_eq, whole,
      Nat.mul_div_cancel _ pos₂, Nat.mul_mod_left]
    rfl
  rw [div, core]
  exact roundWithAccuracy_exact h _ k

/-! ### Results that are no NaN -/

theorem isNaN_roundWithAccuracy (s : Sign) (m : Nat) (e : Int) (accuracy : Accuracy) :
    (roundWithAccuracy format s m e accuracy).isNaN = false := by
  unfold roundWithAccuracy
  simp only
  split <;> rfl

theorem isNaN_mul {u : UnpackedFloat} (number : u.isNaN = false) (s : Sign) (m : Nat) (e : Int)
    (pos : 0 < m) : (mul format u (.finite s m e pos)).isNaN = false := by
  cases u with
  | notANumber => cases number
  | infinity s' => rfl
  | zero s' => rfl
  | finite s' m' e' pos' => exact isNaN_roundWithAccuracy ..

theorem isNaN_div {u : UnpackedFloat} (number : u.isNaN = false) (s : Sign) (m : Nat) (e : Int)
    (pos : 0 < m) : (div format u (.finite s m e pos)).isNaN = false := by
  cases u with
  | notANumber => cases number
  | infinity s' => rfl
  | zero s' => rfl
  | finite s' m' e' pos' => exact isNaN_roundWithAccuracy ..

/-! ### Integers -/

/-- An integer with few enough bits is a double: as many zeros are put behind it as there is room
for. -/
theorem canonical_of_lt (pos : 0 < m) (lt : m < 2 ^ 53) :
    Canonical (m * 2 ^ (52 - m.log2)) (-(52 - m.log2 : Nat)) := by
  have nonzero := Nat.ne_of_gt pos
  have short : m.log2 < 53 := (Nat.log2_lt nonzero).mpr lt
  have long : (m * 2 ^ (52 - m.log2)).log2 = 52 := by
    rw [log2_mul_two_pow pos]
    omega
  have pos' := Nat.mul_pos pos (Nat.two_pow_pos (52 - m.log2))
  have bounds := (Nat.log2_eq_iff (Nat.ne_of_gt pos')).mp long
  exact ⟨pos', bounds.2, by omega, by omega, .inl bounds.1⟩

theorem parts_toFloat (pos : 0 < m) (lt : m < 2 ^ 53) :
    parts m.toUInt64.toFloat = .finite .positive (m * 2 ^ (52 - m.log2)) (-(52 - m.log2 : Nat))
      (canonical_of_lt pos lt).pos := by
  have canonical := canonical_of_lt pos lt
  have toNat_eq : m.toUInt64.toNat = m := by
    rw [Nat.toUInt64_eq, UInt64.toNat_ofNat']
    omega
  have short : m.log2 < 53 := (Nat.log2_lt (Nat.ne_of_gt pos)).mpr lt
  have target : format.targetExponent (totalExponent m 0) = -(52 - m.log2 : Nat) := by
    have same := targetExponent_eq canonical
    have total : totalExponent (m * 2 ^ (52 - m.log2)) (-(52 - m.log2 : Nat)) =
        totalExponent m 0 := by
      rw [totalExponent, totalExponent, log2_mul_two_pow pos]
      push_cast
      ring
    rw [total] at same
    exact same
  have rounded : ofNat format m = .finite .positive (m * 2 ^ (52 - m.log2)) (-(52 - m.log2 : Nat))
      canonical.pos := by
    have exact_ := roundWithAccuracy_exact canonical .positive 0
    rw [Nat.pow_zero, Nat.mul_one, Int.natCast_zero, Int.sub_zero] at exact_
    have positive : compare (m : Int) 0 = .gt := Int.compare_eq_gt.mpr (Int.natCast_pos.mpr pos)
    rw [ofNat, ofInt, Float.Model.UnpackedFloat.normalize, positive]
    simp only [Float.Model.UnpackedFloat.round, decreaseExponent, Int.toNat_natCast, target,
      Int.zero_sub, Int.neg_neg, Nat.shiftLeft_eq]
    exact exact_
  have converted : m.toUInt64.toFloat = ofParts (ofNat format m) := by
    rw [UInt64.toFloat, Float.Model.ofUInt64, ofUInt64, toNat_eq]
  rw [converted, rounded]
  exact unpack_pack_finite canonical _

end Binary64

end TreeQuery
