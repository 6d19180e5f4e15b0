import TreeQuery.Arithmetic
import TreeQuery.Proofs.Decimal.Binary64

/-!
# Decimals in good order

A decimal that stands for a double has a magnitude of 96 bits and at most 28 digits after the point,
and a zero has none. Such decimals are left as they are when a result is brought back to these
bounds, and sum and product do not depend on the order of the operands.

## Main definitions

* `Scaled.WellFormed` — the bounds that decimals satisfy

## Main statements

* `Scaled.wellFormed_of_ofFloat?` — decimals that stand for doubles are in good order
* `Scaled.add?_comm`, `Scaled.mul?_comm` — sum and product of decimals in either order
-/

namespace TreeQuery

namespace Scaled

variable {a b d : Scaled} {m s : Nat}

/-- The decimal has at most 96 bits and 28 digits after the point, and a zero has no such digits. -/
structure WellFormed (d : Scaled) : Prop where
  lt : d.magnitude < magnitudeBound
  le : d.scale ≤ maxScale
  zero : d.magnitude = 0 → d.scale = 0

/-! ### From doubles -/

theorem timesFives_lt {count : Nat} {power : Int} (lt : m < magnitudeBound) :
    (timesFives count m power).1 < magnitudeBound := by
  induction count generalizing m power with
  | zero => exact lt
  | succ count ih =>
    have half : m / 2 < magnitudeBound := Nat.lt_of_le_of_lt (Nat.div_le_self m 2) lt
    unfold timesFives
    split
    · exact ih half
    · split
      · next room => exact ih room
      · exact ih half

theorem overFives_lt {count : Nat} {power : Int} {result : Nat × Int} (lt : m < magnitudeBound)
    (given : overFives count m power = some result) : result.1 < magnitudeBound := by
  induction count generalizing m power with
  | zero =>
    cases given
    exact lt
  | succ count ih =>
    unfold overFives at given
    split at given
    · next room =>
      have twice : Nat.pow 2 95 * 2 = magnitudeBound := by decide
      exact ih (by omega) given
    · split at given
      · cases given
      · exact ih (Nat.lt_of_le_of_lt (Nat.div_le_self m 5) lt) given

theorem absorbPower_lt {power result : Nat} (lt : m < magnitudeBound)
    (given : absorbPower power m = some result) : result < magnitudeBound := by
  induction power generalizing m with
  | zero =>
    cases given
    exact lt
  | succ power ih =>
    unfold absorbPower at given
    split at given
    · next room => exact ih room given
    · cases given

/-- A digit less is no more. -/
theorem dropDigit_le (large : 2 ≤ m) : dropDigit m ≤ m := by
  unfold dropDigit
  split <;> omega

theorem limitScale_le (s m : Nat) :
    (limitScale s m).1 ≤ m ∧ (limitScale s m).2 ≤ maxScale := by
  induction s generalizing m with
  | zero => exact ⟨Nat.le_refl _, Nat.zero_le _⟩
  | succ s ih =>
    unfold limitScale
    split
    · next le => exact ⟨Nat.le_refl _, le⟩
    · split
      · exact ⟨Nat.zero_le _, Nat.zero_le _⟩
      · next some =>
        obtain ⟨below, le⟩ := ih (dropDigit m)
        exact ⟨below.trans (dropDigit_le (by omega)), le⟩

theorem limitPrecision_le (s m : Nat) :
    (limitPrecision s m).1 ≤ m ∧ (limitPrecision s m).2 ≤ s := by
  induction s generalizing m with
  | zero => exact ⟨Nat.le_refl _, Nat.le_refl _⟩
  | succ s ih =>
    unfold limitPrecision
    split
    · next long =>
      obtain ⟨below, le⟩ := ih (dropDigit m)
      have many : 2 ≤ m := Nat.le_trans (by decide) long
      exact ⟨below.trans (dropDigit_le many), Nat.le_succ_of_le le⟩
    · exact ⟨Nat.le_refl _, Nat.le_refl _⟩

/-- No digit after the point is left of a zero. -/
theorem dropZeros_le (s m : Nat) :
    (dropZeros s m).1 ≤ m ∧ (dropZeros s m).2 ≤ s ∧
      ((dropZeros s m).1 = 0 → (dropZeros s m).2 = 0) := by
  induction s generalizing m with
  | zero => exact ⟨Nat.le_refl _, Nat.le_refl _, fun _ => rfl⟩
  | succ s ih =>
    unfold dropZeros
    split
    · obtain ⟨below, le, zero⟩ := ih (m / 10)
      exact ⟨below.trans (Nat.div_le_self m 10), Nat.le_succ_of_le le, zero⟩
    · next last =>
      refine ⟨Nat.le_refl _, Nat.le_refl _, fun zero => absurd ?_ last⟩
      rw [show m = 0 from zero]

theorem wellFormed_of_ofDyadic? {x : Dyadic} (small : x.mantissa < magnitudeBound)
    (given : ofDyadic? x = some d) : d.WellFormed := by
  unfold ofDyadic? at given
  split at given
  · cases given
    exact ⟨Nat.two_pow_pos 96, Nat.zero_le _, fun _ => rfl⟩
  · have first : (timesFives (-x.exponent).toNat x.mantissa x.exponent).1 < magnitudeBound :=
      timesFives_lt small
    simp only [Option.bind_eq_bind, Option.bind_eq_some_iff, Option.some.injEq] at given
    obtain ⟨second, overFives_eq, third, absorbed, rfl⟩ := given
    have third_lt := absorbPower_lt (overFives_lt first overFives_eq) absorbed
    obtain ⟨fourth_le, scale_le⟩ := limitScale_le (-second.2).toNat third
    obtain ⟨fifth_le, scale_le'⟩ := limitPrecision_le
      (limitScale (-second.2).toNat third).2 (limitScale (-second.2).toNat third).1
    obtain ⟨sixth_le, scale_le'', zero⟩ := dropZeros_le
      (limitPrecision (limitScale (-second.2).toNat third).2
        (limitScale (-second.2).toNat third).1).2
      (limitPrecision (limitScale (-second.2).toNat third).2
        (limitScale (-second.2).toNat third).1).1
    exact ⟨((sixth_le.trans fifth_le).trans fourth_le).trans_lt third_lt,
      (scale_le''.trans scale_le').trans scale_le, zero⟩

/-- The mantissa of a double has 53 bits. -/
theorem mantissa_lt {x : Float} {e : Dyadic} (finite : Dyadic.ofFloat? x = some e) :
    e.mantissa < magnitudeBound := by
  have bits : 2 ^ 53 < magnitudeBound := by decide
  have whole := Binary64.whole_parts x
  rcases Dyadic.parts_of_ofFloat? finite with ⟨s, same, rfl⟩ | ⟨s, m, e, pos, same, rfl⟩
  · exact Nat.two_pow_pos 96
  · rw [same] at whole
    have canonical : Binary64.Canonical m e := whole
    exact canonical.lt.trans bits

/-- Decimals that stand for doubles are in good order. -/
theorem wellFormed_of_ofFloat? {x : Float} (given : ofFloat? x = some d) : d.WellFormed := by
  obtain ⟨e, finite, given⟩ := Option.bind_eq_some_iff.mp given
  exact wellFormed_of_ofDyadic? (mantissa_lt finite) given

theorem recoverable?_eq_some_iff {x : Float} :
    recoverable? x = some d ↔ ofFloat? x = some d ∧ (d.toFloat == x) = true :=
  Option.filter_eq_some_iff

theorem wellFormed_of_recoverable? {x : Float} (given : recoverable? x = some d) : d.WellFormed :=
  wellFormed_of_ofFloat? (recoverable?_eq_some_iff.mp given).1

/-! ### Sum and product -/

/-- A zero is the double zero, without a sign. -/
theorem WellFormed.toFloat_zero (h : d.WellFormed) (zero : d.magnitude = 0) : d.toFloat = 0 := by
  rw [toFloat, if_pos (h.zero zero), if_pos zero]

/-- A magnitude of 96 bits with few enough digits after the point is left as it is. -/
theorem rescale?_of_lt (lt : m < magnitudeBound) (le : s ≤ maxScale) :
    rescale? m s = some (m, s) := by
  have short : ¬ m ≥ magnitudeBound := Nat.not_le.mpr lt
  have places : s - maxScale = 0 := Nat.sub_eq_zero_of_le le
  have whole : divHalfEven m 1 = m := by
    rw [divHalfEven, Nat.div_one, Nat.mod_one]
    rfl
  simp [rescale?, short, places, whole, lt]

/-- The sum of decimals is the same in either order, but for the sign of zero, which no double
shows. -/
theorem add?_comm (ha : a.WellFormed) (hb : b.WellFormed) :
    (add? a b).map toFloat = (add? b a).map toFloat := by
  by_cases zero : a.magnitude = 0
  · by_cases zero' : b.magnitude = 0
    · simp only [add?, if_pos zero, if_pos zero', Option.map_some, ha.toFloat_zero zero,
        hb.toFloat_zero zero']
    · simp only [add?, if_pos zero, if_neg zero']
  · by_cases zero' : b.magnitude = 0
    · simp only [add?, if_neg zero, if_pos zero']
    · simp only [add?, if_neg zero, if_neg zero', Nat.max_comm a.scale, Int.add_comm]

theorem mul?_comm (a b : Scaled) : mul? a b = mul? b a := by
  have signs : (a.negative != b.negative) = (b.negative != a.negative) := Bool.xor_comm _ _
  simp only [mul?, signs, Nat.add_comm a.scale, Nat.mul_comm a.magnitude,
    or_comm (a := a.magnitude = 0), and_comm (a := a.magnitude < Nat.pow 2 32)]

/-- A sum with zero is the other operand. -/
theorem toFloat_add?_zero (ha : a.WellFormed) : (add? a zero).map toFloat = some a.toFloat := by
  by_cases none : a.magnitude = 0
  · rw [add?, if_pos none, ha.toFloat_zero none]
    rfl
  · have none' : zero.magnitude = 0 := rfl
    rw [add?, if_neg none, if_pos none', Option.map_some]

/-- A product with one is the other operand. -/
theorem toFloat_mul?_one (ha : a.WellFormed) :
    (mul? a ⟨false, 1, 0⟩).map toFloat = some a.toFloat := by
  by_cases none : a.magnitude = 0
  · rw [mul?, if_pos (.inl none), ha.toFloat_zero none]
    rfl
  · have some : ¬ (a.magnitude = 0 ∨ 1 = 0) := by omega
    have places : ¬ a.scale > 47 := Nat.not_lt.mpr (ha.le.trans (by decide))
    have places' : ¬ a.scale > maxScale := Nat.not_lt.mpr ha.le
    simp only [mul?, if_neg some, Nat.mul_one, Nat.add_zero, Bool.bne_false, if_neg places,
      if_neg places', rescale?_of_lt ha.lt ha.le]
    split <;> rfl

end Scaled

end TreeQuery
