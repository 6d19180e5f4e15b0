import Mathlib
import TreeQuery.Decimal.Dyadic

/-!
# Doubles and their words

A double is a word of 64 bits; arithmetic takes the sign, the mantissa and the exponent out of words
and puts them back. Nothing is lost on the way, in either direction: mantissa and exponent of a word
satisfy bounds, and whatever satisfies these bounds is taken out again as it was put in.

## Main definitions

* `Binary64.Canonical` — a mantissa and an exponent, as they are in words

## Main statements

* `Binary64.unpack_pack_finite` — what is put into a word is in it
* `Binary64.eq_of_parts_eq` — a double is known by its parts
* `Dyadic.eq_of_sign` — a finite double is its magnitude with its sign
-/

namespace TreeQuery

namespace Binary64

open Float.Model (Format UnpackedFloat)
open Float.Model.UnpackedFloat

/-- The format of doubles. -/
abbrev format : Format := Format.binary64

/-- The sign in a word. -/
abbrev signOf (b : BitVec 64) : BitVec 1 := @unpackSign format b

/-- The biased exponent in a word. -/
abbrev exponentOf (b : BitVec 64) : BitVec 11 := @unpackExponent format b

/-- The mantissa in a word, without the leading bit. -/
abbrev mantissaOf (b : BitVec 64) : BitVec 52 := @unpackMantissa format b

theorem bias_eq : (format.exponentBias : Int) = 1023 := by
  decide

theorem mantissaBits_eq : format.mantissaBits = 53 := by
  decide

/-! ### The components of a word -/

/-- The double with these components: with the largest exponent it is not finite, with the least one
the mantissa has no leading bit. -/
def ofComponents (s : Sign) (e : BitVec 11) (m : BitVec 52) : UnpackedFloat :=
  if e = -1#11 then if m = 0#52 then .infinity s else .notANumber
  else if e = 0#11 then
    if h : m.toNat = 0 then .zero s else .finite s m.toNat (-1074) (Nat.pos_of_ne_zero h)
  else .finite s (2 ^ 52 + m.toNat) (e.toNat - 1075) (Nat.add_pos_left (by decide) _)

theorem toNat_append_mantissa (b : BitVec 52) : (1#1 ++ b).toNat = 2 ^ 52 + b.toNat := by
  rw [BitVec.toNat_append, ← Nat.shiftLeft_add_eq_or_of_lt b.isLt]
  rfl

theorem unpack_eq (b : BitVec 64) :
    unpack format b = ofComponents (Sign.ofBitVec (signOf b)) (exponentOf b) (mantissaOf b) := by
  have zero_iff : mantissaOf b = 0#52 ↔ (mantissaOf b).toNat = 0 :=
    ⟨fun same => by rw [same]; rfl, fun same => BitVec.eq_of_toNat_eq same⟩
  unfold unpack ofComponents
  by_cases largest : exponentOf b = -1#11
  · simp only [if_pos largest]
  · simp only [if_neg largest]
    by_cases least : exponentOf b = 0#11
    · simp only [if_pos least]
      by_cases zero : mantissaOf b = 0#52
      · have zero' := zero_iff.mp zero
        rw [dif_pos zero, dif_pos zero']
      · have zero' : ¬ (mantissaOf b).toNat = 0 := fun same => zero (zero_iff.mpr same)
        have lowest :
            ((exponentOf b).toNat : Int) - (format.exponentBias + (52 : Nat)) + 1 = -1074 := by
          rw [least, bias_eq]
          decide
        rw [dif_neg zero, dif_neg zero']
        simp only [UnpackedFloat.finite.injEq, true_and]
        exact lowest
    · simp only [if_neg least, toNat_append_mantissa]
      rfl

theorem unpack_packComponents (s : Sign) (e : BitVec 11) (m : BitVec 52) :
    unpack format (packComponents format s e m) = ofComponents s e m := by
  rw [unpack_eq, signOf, exponentOf, mantissaOf, unpackSign_packComponents,
    unpackExponent_packComponents, unpackMantissa_packComponents, Sign.ofBitVec_toBitVec]

/-! ### Canonical doubles -/

/-- The mantissa and the exponent of a finite double other than zero. Only the least exponent goes
with mantissas that do not have all their bits. -/
structure Canonical (m : Nat) (e : Int) : Prop where
  pos : 0 < m
  lt : m < 2 ^ 53
  least : -1074 ≤ e
  greatest : e ≤ 971
  full : 2 ^ 52 ≤ m ∨ e = -1074

variable {s : Sign} {m : Nat} {e : Int} {b : BitVec 64}

theorem exponent_ne {x : BitVec 11} {n : Nat} (other : x ≠ BitVec.ofNat 11 n) (below : n < 2048) :
    x.toNat ≠ n := by
  intro same
  apply other
  apply BitVec.eq_of_toNat_eq
  rw [same, BitVec.toNat_ofNat, Nat.mod_eq_of_lt below]

/-- What is in a word is canonical. -/
theorem canonical_of_unpack {pos : 0 < m} (h : unpack format b = .finite s m e pos) :
    Canonical m e := by
  have below : (mantissaOf b).toNat < 2 ^ 52 := (mantissaOf b).isLt
  have below' : (exponentOf b).toNat < 2 ^ 11 := (exponentOf b).isLt
  rw [unpack_eq, ofComponents] at h
  by_cases largest : exponentOf b = -1#11
  · rw [if_pos largest] at h
    split at h <;> cases h
  · rw [if_neg largest] at h
    by_cases least : exponentOf b = 0#11
    · rw [if_pos least] at h
      split at h
      · cases h
      · simp only [UnpackedFloat.finite.injEq] at h
        obtain ⟨-, rfl, rfl⟩ := h
        exact ⟨pos, by omega, by omega, by omega, .inr rfl⟩
    · rw [if_neg least] at h
      have inner := exponent_ne (n := 2047) largest (by decide)
      have positive := exponent_ne (n := 0) least (by decide)
      simp only [UnpackedFloat.finite.injEq] at h
      obtain ⟨-, rfl, rfl⟩ := h
      exact ⟨pos, by omega, by omega, by omega, .inl (by omega)⟩

/-- Only the largest exponent makes NaN. -/
theorem isNaN_ofComponents (s : Sign) {e : BitVec 11} {m : BitVec 52} (inner : e ≠ -1#11) :
    (ofComponents s e m).isNaN = false := by
  rw [ofComponents, if_neg inner]
  split
  · split <;> rfl
  · rfl

theorem exponent_ne_largest {n : Nat} (below : n + 1 < 2 ^ 11) : BitVec.ofNat 11 n ≠ -1#11 := by
  intro same
  have same' := congrArg BitVec.toNat same
  rw [BitVec.toNat_ofNat, Nat.mod_eq_of_lt (by omega)] at same'
  simp at same'
  omega

theorem unpack_packedInfinity (s : Sign) :
    unpack format (packedInfinity format s) = .infinity s := by
  rw [packedInfinity, unpack_packComponents]
  rfl

/-- A canonical double is taken out of its word as it was put in. -/
theorem unpack_pack_finite (h : Canonical m e) (s : Sign) :
    unpack format (pack format (.finite s m e h.pos)) = .finite s m e h.pos := by
  obtain ⟨pos, lt, least, greatest, full⟩ := h
  obtain ⟨biased, biased_eq⟩ : ∃ n : Nat, (n : Int) = e + 1075 := ⟨(e + 1075).toNat, by omega⟩
  have toNat_eq : (e + format.exponentBias + (52 : Nat)).toNat = biased := by
    rw [bias_eq]
    omega
  have inRange : ¬ 2 ^ 11 ≤ biased + 1 := by omega
  simp only [pack, toNat_eq, if_neg inRange, mantissaBits_eq]
  -- A full mantissa loses its leading bit in the word and gets it back. One that is not full stands
  -- in the lowest exponent, which is marked by a zero.
  by_cases normal : 2 ^ 52 ≤ m
  · have log : m.log2 = 52 := (Nat.log2_eq_iff (Nat.ne_of_gt pos)).mpr ⟨normal, lt⟩
    have exponent : (BitVec.ofNat 11 biased).toNat = biased := by
      rw [BitVec.toNat_ofNat, Nat.mod_eq_of_lt (by omega)]
    have mantissa : 2 ^ 52 + (BitVec.ofNat 52 m).toNat = m := by
      rw [BitVec.toNat_ofNat]
      omega
    have inner : BitVec.ofNat 11 biased ≠ -1#11 := exponent_ne_largest (Nat.lt_of_not_le inRange)
    have positive : BitVec.ofNat 11 biased ≠ 0#11 := by
      intro same
      have same' := congrArg BitVec.toNat same
      rw [exponent] at same'
      simp at same'
      omega
    rw [if_pos (by rw [log]), unpack_packComponents, ofComponents, if_neg inner, if_neg positive]
    simp only [UnpackedFloat.finite.injEq, true_and]
    exact ⟨mantissa, by omega⟩
  · have log : m.log2 + 1 ≠ 53 := by
      have short := (Nat.log2_lt (Nat.ne_of_gt pos)).mpr (Nat.lt_of_not_le normal)
      omega
    have mantissa : (BitVec.ofNat 52 m).toNat = m := by
      rw [BitVec.toNat_ofNat, Nat.mod_eq_of_lt (Nat.lt_of_not_le normal)]
    have lowest := full.resolve_left normal
    rw [if_neg log, unpack_packComponents, ofComponents, if_neg (by decide), if_pos rfl]
    rw [dif_neg (by rw [mantissa]; exact Nat.ne_of_gt pos)]
    simp only [UnpackedFloat.finite.injEq, true_and]
    exact ⟨mantissa, lowest.symm⟩

/-! ### Doubles -/

/-- What a double is made of. -/
abbrev parts (x : Float) : UnpackedFloat := x.toModel.unpack

/-- Finite parts are canonical. -/
def Whole : UnpackedFloat → Prop
  | .finite _ m e _ => Canonical m e
  | _ => True

theorem whole_parts (x : Float) : Whole (parts x) := by
  unfold Whole
  split
  · next same => exact canonical_of_unpack same
  · trivial

theorem unpack_pack {u : UnpackedFloat} (whole : Whole u) : unpack format (pack format u) = u := by
  cases u with
  | infinity s => exact unpack_packedInfinity s
  | notANumber => rfl
  | zero s => exact unpack_packedZero
  | finite s m e pos => exact unpack_pack_finite whole s

/-- The double made of these parts. -/
abbrev ofParts (u : UnpackedFloat) : Float := .ofModel (.pack u)

theorem parts_ofParts {u : UnpackedFloat} (whole : Whole u) : parts (ofParts u) = u :=
  unpack_pack whole

theorem ofParts_parts (x : Float) : ofParts (parts x) = x := by
  obtain ⟨⟨bits, valid⟩⟩ := x
  have same : pack format (unpack format bits.toBitVec) = bits.toBitVec :=
    pack_unpack_of_valid valid
  simp only [ofParts, parts, Float.Model.pack, Float.Model.unpack]
  congr

/-- A double is known by its parts. -/
theorem eq_of_parts_eq {x y : Float} (same : parts x = parts y) : x = y := by
  rw [← ofParts_parts x, same, ofParts_parts]

theorem parts_neg (x : Float) : parts (-x) = (parts x).neg := by
  have whole : Whole (parts x).neg := by
    have whole := whole_parts x
    revert whole
    cases parts x <;> exact id
  exact parts_ofParts whole

theorem parts_abs (x : Float) : parts x.abs = (parts x).abs := by
  have whole : Whole (parts x).abs := by
    have whole := whole_parts x
    revert whole
    cases parts x <;> exact id
  exact parts_ofParts whole

theorem isNaN_eq (x : Float) : x.isNaN = (parts x).isNaN := rfl

/-- Packing makes no NaN. -/
theorem isNaN_ofParts {u : UnpackedFloat} (number : u.isNaN = false) :
    (ofParts u).isNaN = false := by
  have packed : (unpack format (pack format u)).isNaN = false := by
    cases u with
    | notANumber => cases number
    | infinity s =>
      rw [pack, unpack_packedInfinity]
      rfl
    | zero s =>
      rw [pack, unpack_packedZero]
      rfl
    | finite s m e pos =>
      rw [pack]
      split
      · rw [unpack_packedInfinity]
        rfl
      · next inRange =>
        split
        · rw [unpack_packComponents]
          exact isNaN_ofComponents s (exponent_ne_largest (Nat.lt_of_not_le inRange))
        · rw [unpack_packComponents]
          exact isNaN_ofComponents s (by decide)
  exact packed

theorem isNaN_neg (x : Float) : (-x).isNaN = x.isNaN := by
  rw [isNaN_eq, isNaN_eq, parts_neg]
  cases parts x <;> rfl

end Binary64

/-! ### The exact value of a double -/

namespace Dyadic

open Binary64

variable {x : Float} {d : Dyadic}

/-- What a dyadic says of a double. -/
theorem parts_of_ofFloat? (finite : ofFloat? x = some d) :
    (∃ s, parts x = .zero s ∧ d = ⟨s == .negative, 0, 0⟩) ∨
      ∃ s m e pos, parts x = .finite s m e pos ∧ d = ⟨s == .negative, m, e⟩ := by
  unfold ofFloat? at finite
  split at finite
  · next s m e pos same => exact .inr ⟨s, m, e, pos, same, (Option.some.inj finite).symm⟩
  · next s same => exact .inl ⟨s, same, (Option.some.inj finite).symm⟩
  · cases finite
  · cases finite

/-- The sign and the magnitude of a double give it back. -/
theorem eq_of_sign (finite : ofFloat? x = some d) :
    x = if d.negative then -x.abs else x.abs := by
  have magnitude := parts_abs x
  have opposite := parts_neg x.abs
  rw [magnitude] at opposite
  apply eq_of_parts_eq
  rcases parts_of_ofFloat? finite with ⟨s, same, rfl⟩ | ⟨s, m, e, pos, same, rfl⟩
  · rw [same] at magnitude opposite ⊢
    cases s with
    | positive => exact magnitude.symm
    | negative => exact opposite.symm
  · rw [same] at magnitude opposite ⊢
    cases s with
    | positive => exact magnitude.symm
    | negative => exact opposite.symm

theorem isInf_of_ofFloat? (finite : ofFloat? x = some d) : x.isInf = false := by
  rcases parts_of_ofFloat? finite with ⟨s, same, -⟩ | ⟨s, m, e, pos, same, -⟩
  · exact congrArg Float.Model.UnpackedFloat.isInf same
  · exact congrArg Float.Model.UnpackedFloat.isInf same

/-- What has no exact value is infinite, if it is a number. -/
theorem isInf_of_ofFloat?_eq_none (none : ofFloat? x = none) (number : x.isNaN = false) :
    x.isInf = true := by
  unfold ofFloat? at none
  split at none
  · cases none
  · cases none
  · next same => exact congrArg Float.Model.UnpackedFloat.isInf same
  · next same =>
    have nan : x.isNaN = true := congrArg Float.Model.UnpackedFloat.isNaN same
    rw [number] at nan
    cases nan

end Dyadic

end TreeQuery
