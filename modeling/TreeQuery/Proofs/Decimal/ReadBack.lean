import TreeQuery.Decimal.Shortest
import TreeQuery.Proofs.Decimal.Rounding

/-!
# Decimals that read back

The shortest decimal of a double reads back as that double, whichever way it was found.

## Main statements

* `Decimal.toFloat_exact` — the exact value of a double, as a decimal, reads back
* `Decimal.toFloat_shortest` — the shortest decimal reads back
* `Decimal.isNaN_toFloat` — no decimal is read as NaN
-/

namespace TreeQuery

namespace Binary64

open Float.Model (Format UnpackedFloat)
open Float.Model.UnpackedFloat

variable {m : Nat} {e : Int}

/-- Whether this is exactly a power of ten. -/
def isPowerOfTen (k : Nat) : UnpackedFloat → Bool
  | .finite .positive m e _ => m * 2 ^ e.toNat = 10 ^ k * 2 ^ (-e).toNat
  | _ => false

theorem isPowerOfTen_parts : ∀ k : Fin Float.exactlyRepresentablePowersOfTen.size,
    isPowerOfTen k (parts Float.exactlyRepresentablePowersOfTen[k]) := by
  decide +kernel

theorem parts_one (listed : 0 < Float.exactlyRepresentablePowersOfTen.size) :
    parts Float.exactlyRepresentablePowersOfTen[0] = .finite .positive (2 ^ 52) (-52) (by decide) :=
  (rfl : parts 1 = _)

/-- The small powers of ten are doubles. -/
theorem parts_powerOfTen (k : Nat) (small : k < Float.exactlyRepresentablePowersOfTen.size) :
    ∃ M E, ∃ pos : 0 < M,
      parts Float.exactlyRepresentablePowersOfTen[k] = .finite .positive M E pos ∧
        M * 2 ^ E.toNat = 10 ^ k * 2 ^ (-E).toNat := by
  have power : isPowerOfTen k (parts Float.exactlyRepresentablePowersOfTen[k]) :=
    isPowerOfTen_parts ⟨k, small⟩
  revert power
  generalize parts Float.exactlyRepresentablePowersOfTen[k] = u
  intro power
  unfold isPowerOfTen at power
  split at power
  · next M E pos => exact ⟨M, E, pos, rfl, of_decide_eq_true power⟩
  · cases power

/-! ### Exact values -/

theorem parts_mul (x y : Float) : x * y = ofParts (mul format (parts x) (parts y)) := rfl

theorem exponentBits_eq : (2 : Int) ^ format.exponentBits = 2048 := by
  decide

/-- An integer that is a double is read as this double. -/
theorem ofScientific_integer (h : Canonical m e) (integer : 0 ≤ e) :
    Float.ofScientific (m * 2 ^ e.toNat) false 0 = ofParts (.finite .positive m e h.pos) := by
  have pos : 0 < m * 2 ^ e.toNat := Nat.mul_pos h.pos (Nat.two_pow_pos _)
  unfold Float.ofScientific
  split
  · next small =>
    -- An integer below `2 ^ 53` is a double, and it is multiplied by one.
    have product : m * 2 ^ e.toNat * 2 ^ (52 - (m * 2 ^ e.toNat).log2) * 2 ^ 52 =
        m * 2 ^ (e.toNat + (52 - (m * 2 ^ e.toNat).log2) + 52) := by ring
    simp only [Bool.false_eq_true, if_false]
    rw [parts_mul, parts_toFloat pos small.1, parts_one,
      mul_exact h _ _ product (by omega)]
  · next large =>
    -- A large integer gets 53 zeros behind it, which rounding drops.
    have product : (m * 2 ^ e.toNat) <<< format.mantissaBits * 10 ^ (0 : Int).toNat =
        m * 2 ^ (e.toNat + 53) := by
      rw [Nat.shiftLeft_eq, mantissaBits_eq, Int.toNat_zero]
      ring
    have exponent : -(format.mantissaBits : Int) + 0 = e - (e.toNat + 53 : Nat) := by
      rw [mantissaBits_eq]
      omega
    have scientific : ofScientific format (m * 2 ^ e.toNat) 0 = .finite .positive m e h.pos := by
      rw [ofScientific, dif_neg (Nat.ne_of_gt pos), exponentBits_eq, if_neg (by omega),
        if_neg (by omega), if_pos (by omega), mul_exact h _ _ product exponent]
    have same :
        Float.Model.ofScientific (m * 2 ^ e.toNat) 0 = .pack (.finite .positive m e h.pos) :=
      congrArg Float.Model.pack scientific
    exact congrArg Float.ofModel same

/-- A decimal fraction that is a double is read as this double. -/
theorem ofScientific_fraction {k : Nat} (h : Canonical m e) (fraction : e = -k) :
    Float.ofScientific (m * 5 ^ k) true k = ofParts (.finite .positive m e h.pos) := by
  have pos : 0 < m * 5 ^ k := Nat.mul_pos h.pos (Nat.pow_pos (by decide))
  have ten : (10 : Nat) ^ k = 5 ^ k * 2 ^ k := by rw [← Nat.mul_pow]
  unfold Float.ofScientific
  split
  · next small =>
    -- Digits and power of ten are doubles, so the quotient is rounded once: not at all.
    have listed : k < Float.exactlyRepresentablePowersOfTen.size := Nat.lt_succ_of_le small.2
    obtain ⟨M, E, posM, power, value⟩ := parts_powerOfTen k listed
    have quotient : m * 5 ^ k * 2 ^ (52 - (m * 5 ^ k).log2) * 2 ^ (k + (-E).toNat) =
        M * m * 2 ^ (E.toNat + (52 - (m * 5 ^ k).log2)) := by
      calc m * 5 ^ k * 2 ^ (52 - (m * 5 ^ k).log2) * 2 ^ (k + (-E).toNat)
          = m * (5 ^ k * 2 ^ k * 2 ^ (-E).toNat) * 2 ^ (52 - (m * 5 ^ k).log2) := by ring
        _ = m * (M * 2 ^ E.toNat) * 2 ^ (52 - (m * 5 ^ k).log2) := by rw [← ten, value]
        _ = M * m * 2 ^ (E.toNat + (52 - (m * 5 ^ k).log2)) := by ring
    have divided : div format (parts (m * 5 ^ k).toUInt64.toFloat)
        (parts Float.exactlyRepresentablePowersOfTen[k]) = .finite .positive m e h.pos := by
      rw [parts_toFloat pos small.1, power]
      exact div_exact h _ posM quotient (by push_cast; omega)
    exact congrArg ofParts divided
  · next large =>
    -- The quotient of two integers, again one that needs no rounding.
    have quotient : m * 5 ^ k * 2 ^ k = 10 ^ (-(-(k : Int))).toNat * m * 2 ^ 0 := by
      rw [Int.neg_neg, Int.toNat_natCast, ten]
      ring
    have positive : k ≠ 0 := by
      rintro rfl
      apply large
      simp only [Nat.pow_zero, Nat.mul_one]
      exact ⟨h.lt, Nat.zero_le _⟩
    have scientific : ofScientific format (m * 5 ^ k) (-k) = .finite .positive m e h.pos := by
      have least := h.least
      rw [ofScientific, dif_neg (Nat.ne_of_gt pos), exponentBits_eq, if_neg (by omega),
        if_neg (by omega), if_neg (by omega), div_exact h _ _ quotient (by omega)]
    have same : Float.Model.ofScientific (m * 5 ^ k) (Int.negOfNat k) =
        .pack (.finite .positive m e h.pos) := by
      rw [Int.negOfNat_eq]
      exact congrArg Float.Model.pack scientific
    exact congrArg Float.ofModel same

end Binary64

namespace Decimal

open Binary64
open Float.Model.UnpackedFloat

variable {x : Float} {d : Dyadic}

/-- The exact value of a double, as a decimal, reads back. -/
theorem toFloat_exact (finite : Dyadic.ofFloat? x = some d) (nonzero : d.mantissa ≠ 0) :
    (exact d).toFloat = x.abs := by
  have whole := whole_parts x
  have magnitude := parts_abs x
  rcases Dyadic.parts_of_ofFloat? finite with ⟨s, same, rfl⟩ | ⟨s, m, e, pos, same, rfl⟩
  · exact absurd rfl nonzero
  · rw [same] at whole magnitude
    have canonical : Canonical m e := whole
    have abs_eq : x.abs = ofParts (.finite .positive m e pos) := by
      apply eq_of_parts_eq
      rw [magnitude]
      exact (unpack_pack_finite canonical .positive).symm
    rw [abs_eq]
    by_cases integer : 0 ≤ e
    · have read := ofScientific_integer canonical integer
      simpa [exact, toFloat, integer, Dyadic.numerator] using read
    · obtain ⟨k, fraction⟩ : ∃ k : Nat, e = -k := ⟨(-e).toNat, by omega⟩
      have read := ofScientific_fraction canonical fraction
      have places : (-e).toNat = k := by omega
      simpa [exact, toFloat, integer, places] using read

theorem toFloat_zero : (⟨0, 0⟩ : Decimal).toFloat = ofParts (.zero .positive) := by
  rfl

/-- The shortest decimal of a double reads back as its magnitude. -/
theorem toFloat_shortest (tie : Tie) (finite : Dyadic.ofFloat? x = some d) :
    (shortest tie x.abs d).toFloat = x.abs := by
  unfold shortest
  split
  · next zero =>
    have magnitude := parts_abs x
    rcases Dyadic.parts_of_ofFloat? finite with ⟨s, same, rfl⟩ | ⟨s, m, e, pos, same, rfl⟩
    · rw [same] at magnitude
      rw [toFloat_zero]
      apply eq_of_parts_eq
      rw [magnitude]
      exact unpack_packedZero
    · exact absurd zero (Nat.ne_of_gt pos)
  · next nonzero =>
    cases found : (List.range' 1 17).findSome? (onGrid? tie x.abs d.numerator d.denominator) with
    | none => exact toFloat_exact finite nonzero
    | some d' =>
      obtain ⟨digits, -, offered⟩ := List.exists_of_findSome?_eq_some found
      exact toFloat_of_onGrid? offered

/-! ### No decimal is read as NaN -/

theorem isNaN_toUInt64_toFloat (n : UInt64) : (parts n.toFloat).isNaN = false := by
  have number : (ofNat format n.toNat).isNaN = false := by
    unfold ofNat ofInt Float.Model.UnpackedFloat.normalize
    split
    · exact isNaN_roundWithAccuracy ..
    · rfl
    · exact isNaN_roundWithAccuracy ..
  exact isNaN_ofParts number

theorem isNaN_scientific (m : Nat) (e : Int) : (ofScientific format m e).isNaN = false := by
  unfold ofScientific
  split
  · rfl
  · split
    · rfl
    · split
      · rfl
      · split
        · exact isNaN_roundWithAccuracy ..
        · exact isNaN_roundWithAccuracy ..

theorem isNaN_ofScientific (m : Nat) (negative : Bool) (k : Nat) :
    (Float.ofScientific m negative k).isNaN = false := by
  unfold Float.ofScientific
  split
  · next small =>
    have listed : k < Float.exactlyRepresentablePowersOfTen.size := Nat.lt_succ_of_le small.2
    obtain ⟨M, E, pos, power, -⟩ := parts_powerOfTen k listed
    have number := isNaN_toUInt64_toFloat m.toUInt64
    cases negative with
    | true =>
      have quotient := isNaN_div number .positive M E pos
      rw [← power] at quotient
      exact isNaN_ofParts quotient
    | false =>
      have product := isNaN_mul number .positive M E pos
      rw [← power] at product
      exact isNaN_ofParts product
  · exact isNaN_ofParts (isNaN_scientific m _)

/-- No decimal is read as NaN. -/
theorem isNaN_toFloat (d : Decimal) : d.toFloat.isNaN = false := by
  unfold toFloat
  split
  · exact isNaN_ofScientific ..
  · exact isNaN_ofScientific ..

end Decimal

end TreeQuery
