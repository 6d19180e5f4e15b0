import Mathlib.Data.List.TakeWhile
import TreeQuery.Decimal.Layout
import TreeQuery.Proofs.Decimal.ReadBack
import TreeQuery.Proofs.Token.Spelling

/-!
# Numerals

What a decimal without an exponent looks like, and which decimal is read from it. Written without an
exponent, the shortest decimal of a double is a number for the scanner, and its value is the double.

## Main definitions

* `Decimal.Denotes` — digits, perhaps with a point among them, and the decimal they stand for

## Main statements

* `Decimal.exists_denotes_writePositional` — a decimal is written as one of the same value
* `Layout.exists_denotes_writeDecimal` — the text of a double reads back as it
-/

namespace TreeQuery

namespace Decimal

/-- Digits, perhaps with a point among them, stand for a decimal. -/
inductive Denotes : List Char → Decimal → Prop
  | whole {digits : List Char} (nonempty : digits ≠ []) (isWhole : ∀ c ∈ digits, c.isDigit) :
      Denotes digits ⟨Nat.ofDigitChars 10 digits 0, 0⟩
  | fraction {whole digits : List Char} (nonempty : whole ≠ []) (isWhole : ∀ c ∈ whole, c.isDigit)
      (nonempty' : digits ≠ []) (isFraction : ∀ c ∈ digits, c.isDigit) :
      Denotes (whole ++ '.' :: digits) ⟨Nat.ofDigitChars 10 (whole ++ digits) 0, -digits.length⟩

variable {cs : List Char} {d : Decimal}

theorem Denotes.isNumeral (h : Denotes cs d) : isNumeral cs := by
  cases h with
  | whole nonempty isWhole =>
    simp [TreeQuery.isNumeral, List.takeWhile_eq_self_iff.mpr isWhole,
      List.dropWhile_eq_nil_iff.mpr isWhole, nonempty]
  | fraction nonempty isWhole nonempty' isFraction =>
    simp [TreeQuery.isNumeral, List.takeWhile_append_of_pos isWhole,
      List.dropWhile_append_of_pos isWhole, nonempty, nonempty']
    exact isFraction

theorem Denotes.ofNumeral?_eq (h : Denotes cs d) : ofNumeral? cs = some d := by
  cases h with
  | whole nonempty isWhole =>
    simp [ofNumeral?, List.takeWhile_eq_self_iff.mpr isWhole,
      List.dropWhile_eq_nil_iff.mpr isWhole, nonempty]
  | fraction nonempty isWhole nonempty' isFraction =>
    simp [ofNumeral?, List.takeWhile_append_of_pos isWhole,
      List.dropWhile_append_of_pos isWhole, nonempty, nonempty']
    exact isFraction

/-- A numeral is a run. -/
theorem Denotes.isRun (h : Denotes cs d) : Spelling.IsRun cs [] := by
  cases h with
  | whole nonempty isWhole =>
    have members : ∀ c ∈ cs, isRunChar c :=
      fun c mem => Spelling.isRunChar_of_isDigit (isWhole c mem)
    exact Spelling.isRun_nil nonempty members
  | @fraction whole digits nonempty isWhole nonempty' isFraction =>
    cases digits with
    | nil => exact absurd rfl nonempty'
    | cons c digits =>
      have members : ∀ c ∈ digits, isRunChar c :=
        fun c mem => Spelling.isRunChar_of_isDigit (isFraction c (List.mem_cons_of_mem _ mem))
      exact .fraction nonempty isWhole (isFraction c (List.mem_cons_self ..)) members nofun

/-! ### Digits of natural numbers -/

theorem isDigit_of_mem_toDigits {n : Nat} {c : Char} (mem : c ∈ Nat.toDigits 10 n) : c.isDigit :=
  Nat.isDigit_of_mem_toDigits (by decide) (by decide) mem

theorem isDigit_of_mem_zeros {n : Nat} {c : Char} (mem : c ∈ List.replicate n '0') : c.isDigit := by
  rw [List.eq_of_mem_replicate mem]
  rfl

/-- Written without an exponent, a decimal keeps its value. -/
theorem exists_denotes_writePositional (layout : Layout) (bare : layout.afterInteger = "")
    (d : Decimal) :
    ∃ d', Denotes (layout.writePositional d).toList d' ∧ d'.toFloat = d.toFloat := by
  have nonempty : Nat.toDigits 10 d.significand ≠ [] := Nat.toDigits_ne_nil
  have value : Nat.ofDigitChars 10 (Nat.toDigits 10 d.significand) 0 = d.significand :=
    Nat.ofDigitChars_ten_toDigits
  have isDigits : ∀ c ∈ Nat.toDigits 10 d.significand, c.isDigit :=
    fun c mem => isDigit_of_mem_toDigits mem
  unfold Layout.writePositional
  -- Nothing else matters about the digits: there are some, and they write the significand.
  revert nonempty value isDigits
  generalize Nat.toDigits 10 d.significand = digits
  intro nonempty value isDigits
  -- Zeros go behind the digits when the exponent is not negative. Else the point goes between the
  -- digits, or zeros go in front of them.
  by_cases integer : 0 ≤ d.exponent
  · have text : (String.ofList (digits ++ List.replicate d.exponent.toNat '0') ++
        layout.afterInteger).toList = digits ++ List.replicate d.exponent.toNat '0' := by
      rw [bare, String.append_empty, String.toList_ofList]
    have isWhole : ∀ c ∈ digits ++ List.replicate d.exponent.toNat '0', c.isDigit := by
      intro c mem
      rcases List.mem_append.mp mem with mem | mem
      · exact isDigits c mem
      · exact isDigit_of_mem_zeros mem
    simp only [integer, if_true]
    rw [text]
    refine ⟨_, .whole (by simp [nonempty]) isWhole, ?_⟩
    rw [Nat.ofDigitChars_append, value, Nat.ofDigitChars_replicate_zero, Nat.mul_comm]
    simp [toFloat, integer]
  · obtain ⟨places, exponent⟩ : ∃ places : Nat, d.exponent = -places :=
      ⟨(-d.exponent).toNat, by omega⟩
    have places_eq : (-d.exponent).toNat = places := by omega
    have d_eq : (⟨d.significand, -places⟩ : Decimal) = d := by rw [← exponent]
    simp only [integer, if_false, places_eq]
    split
    · next inside =>
      have parts : digits.take (digits.length - places) ++ digits.drop (digits.length - places) =
          digits := List.take_append_drop ..
      have behind : (digits.drop (digits.length - places)).length = places := by
        rw [List.length_drop]
        omega
      have front : digits.take (digits.length - places) ≠ [] := by
        intro none
        have none' := congrArg List.length none
        rw [List.length_take, List.length_nil] at none'
        omega
      have back : digits.drop (digits.length - places) ≠ [] := by
        intro none
        rw [none, List.length_nil] at behind
        omega
      rw [String.toList_ofList]
      refine ⟨_, .fraction front (fun c mem => isDigits c (List.mem_of_mem_take mem)) back
        (fun c mem => isDigits c (List.mem_of_mem_drop mem)), ?_⟩
      rw [parts, value, behind, d_eq]
    · next outside =>
      have isFraction : ∀ c ∈ List.replicate (places - digits.length) '0' ++ digits, c.isDigit := by
        intro c mem
        rcases List.mem_append.mp mem with mem | mem
        · exact isDigit_of_mem_zeros mem
        · exact isDigits c mem
      have length_eq : (List.replicate (places - digits.length) '0' ++ digits).length = places := by
        rw [List.length_append, List.length_replicate]
        omega
      have zeros : ['0'] ++ (List.replicate (places - digits.length) '0' ++ digits) =
          List.replicate (places - digits.length + 1) '0' ++ digits := by
        rw [List.replicate_succ]
        rfl
      rw [String.toList_ofList]
      refine ⟨_, .fraction (List.cons_ne_nil '0' []) (by simp) (by simp [nonempty]) isFraction, ?_⟩
      rw [zeros, Nat.ofDigitChars_append, Nat.ofDigitChars_replicate_zero, Nat.mul_zero, value,
        length_eq, d_eq]

end Decimal

/-- Written without an exponent, a finite double reads back as its magnitude. -/
theorem Layout.exists_denotes_writeDecimal (layout : Layout) (bare : layout.afterInteger = "")
    (positional : ∀ power, layout.positional power = true) {x : Float} {d : Dyadic}
    (finite : Dyadic.ofFloat? x = some d) :
    ∃ d', Decimal.Denotes (layout.writeDecimal (.shortest layout.tie x.abs d)).toList d' ∧
      d'.toFloat = x.abs := by
  have written : layout.writeDecimal (.shortest layout.tie x.abs d) =
      layout.writePositional (.shortest layout.tie x.abs d) := by
    unfold writeDecimal
    exact if_pos (.inr (positional _))
  obtain ⟨d', denotes, same⟩ := Decimal.exists_denotes_writePositional layout bare
    (.shortest layout.tie x.abs d)
  rw [written]
  exact ⟨d', denotes, same.trans (Decimal.toFloat_shortest layout.tie finite)⟩

end TreeQuery
