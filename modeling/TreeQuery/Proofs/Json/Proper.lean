import TreeQuery.Json.Reader
import TreeQuery.Proofs.Decimal.Finite
import TreeQuery.Proofs.Json.Ordered

/-!
# Documents in good order

Documents that are read from texts are in good order: signed integers are below zero, doubles are
finite, and names stand in order. A number that is too large for a double does not slip in as an
infinity: where a significand is multiplied, the product is looked at, and where it is divided, the
quotient is finite.

## Main definitions

* `JsonNumber.Proper`, `Json.Proper` — numbers and documents in good order
* `Json.Yields` — what a reader gives

## Main statements

* `Json.yields_readDocument` — the document at the front of a text
* `Json.proper_of_parse` — documents read from texts
-/

namespace TreeQuery

/-- A signed integer is below zero, and a double is finite. -/
def JsonNumber.Proper : JsonNumber → Prop
  | natural _ => True
  | negative n => n < 0
  | float x => x.isFinite = true

/-- All numbers are in good order, and so are the names of each object. -/
inductive Json.Proper : Json → Prop
  | null : Proper .null
  | boolean (b : Bool) : Proper (.boolean b)
  | number {n : JsonNumber} (proper : n.Proper) : Proper (.number n)
  | string (s : String) : Proper (.string s)
  | array {items : List Json} (each : ∀ j ∈ items, Proper j) : Proper (.array items)
  | object {members : List (String × Json)} (each : ∀ m ∈ members, Proper m.2)
      (ordered : Ordered members) : Proper (.object members)

namespace Json

section Yields

variable {ε α β : Type} {good good' : α → Prop} {r : Except ε α}

/-- What is given, if anything is given, is good. -/
def Yields (r : Except ε α) (good : α → Prop) : Prop := ∀ a, r = .ok a → good a

theorem yields_ok {a : α} (h : good a) : Yields (.ok a : Except ε α) good := by
  rintro _ ⟨⟩
  exact h

theorem yields_error {e : ε} : Yields (.error e) good := by
  rintro _ ⟨⟩

theorem Yields.bind {f : α → Except ε β} {good' : β → Prop} (h : Yields r good)
    (next : ∀ a, good a → Yields (f a) good') : Yields (r >>= f) good' := by
  cases r with
  | error e => exact yields_error
  | ok a => exact next a (h a rfl)

theorem Yields.map {f : α → β} {good' : β → Prop} (h : Yields r good)
    (next : ∀ a, good a → good' (f a)) : Yields (r.map f) good' := by
  cases r with
  | error e => exact yields_error
  | ok a => exact yields_ok (next a (h a rfl))

/-- Nothing is given where a condition fails. -/
theorem yields_guard {c : Prop} [Decidable c] {e : ε} {next : PUnit → Except ε α}
    (h : Yields (next ()) good) :
    Yields (if c then throw e >>= next else next ()) good := by
  split
  · exact yields_error
  · exact h

end Yields

end Json

namespace JsonNumber

open Binary64
open Json (Yields yields_ok yields_error yields_guard)

variable {negative : Bool} {significand : Nat} {exponent : Int} {cs : List Char}

/-! ### Numbers -/

/-- What is divided by a power of ten remains finite. -/
theorem isFinite_shrink {x : Float} {places : Nat} (finite : x.isFinite = true) (pos : 0 < places) :
    (shrink x places).isFinite = true := by
  -- No divisor is the first power of ten, so that each is at least two.
  have divided {x : Float} {k : Nat} (finite : x.isFinite = true) (pos : 0 < k) (le : k ≤ 308) :
      (x / powerOfTen k).isFinite = true := by
    obtain ⟨m, e, pos', same, large⟩ := exists_of_isLarge (isLarge_power pos le)
    exact isFinite_div finite same large
  induction x, places using shrink.induct with
  | case1 x places le =>
    rw [shrink, if_pos le]
    exact divided finite pos le
  | case2 x places many zero =>
    rw [shrink, if_neg many, if_pos zero]
    exact finite
  | case3 x places many nonzero ih =>
    rw [shrink, if_neg many, if_neg nonzero]
    have greatest : maxPower = 308 := rfl
    exact ih (divided finite (by decide) (by decide)) (by omega)

theorem isFinite_ofNat (bound : significand < significandBound) :
    (Float.ofNat significand).isFinite = true :=
  isFinite_of_isNearest (isNearest_ofNat (bound.trans (by decide +kernel)))

/-- A significand times a power of ten is finite, if it is a double at all. -/
theorem yields_scale (bound : significand < significandBound) (exponent : Int) :
    Yields (scale significand exponent) fun x => x.isFinite = true := by
  have finite := isFinite_ofNat bound
  unfold scale
  dsimp only
  split
  · next below => exact yields_ok (isFinite_shrink finite (by omega))
  · split
    · next le =>
      split
      · exact yields_error
      · next bounded =>
        -- The product was looked at for infinity, and it cannot be NaN.
        have number := isNaN_mul_of_isFinite finite (isFinite_power le)
        exact yields_ok (isFinite_of_isInf number (Bool.eq_false_iff.mpr bounded))
    · split
      · exact yields_ok finite
      · exact yields_error

theorem yields_float? (bound : significand < significandBound) (negative : Bool) (exponent : Int) :
    Yields (float? negative significand exponent) Proper := by
  refine (yields_scale bound exponent).map fun x finite => ?_
  cases negative with
  | false => exact finite
  | true => exact (isFinite_neg x).trans finite

theorem proper_integer (bound : significand < significandBound) (negative : Bool) :
    (integer negative significand).Proper := by
  unfold integer
  split
  · exact trivial
  · split
    · next fits =>
      have le : significand ≤ 2 ^ 63 := fits.2
      have value : (Int64.ofInt (-significand)).toInt = -significand :=
        Int64.toInt_ofInt_of_le (by omega) (by omega)
      have below : Int64.ofInt (-significand) < 0 := by
        rw [Int64.lt_iff_toInt_lt, value, Int64.toInt_zero]
        omega
      exact below
    · exact (isFinite_neg _).trans (isFinite_ofNat bound)

theorem yields_readExponent (bound : significand < significandBound) (negative : Bool)
    (exponent : Int) (cs : List Char) :
    Yields (readExponent negative significand exponent cs) fun (n, _) => n.Proper := by
  unfold readExponent
  split
  refine yields_guard ?_
  dsimp only
  split
  · exact (yields_float? bound negative _).bind fun n proper => yields_ok proper
  · split
    · exact yields_error
    · cases negative with
      | false => exact yields_ok (by decide +kernel : Float.isFinite 0.0 = true)
      | true => exact yields_ok (by decide +kernel : Float.isFinite (-0.0) = true)

theorem yields_readScale (bound : significand < significandBound) (negative : Bool)
    (exponent : Int) (cs : List Char) :
    Yields (readScale negative significand exponent cs) fun (n, _) => n.Proper := by
  unfold readScale
  split
  · exact yields_readExponent bound negative exponent _
  · exact yields_readExponent bound negative exponent _
  · exact (yields_float? bound negative exponent).bind fun n proper => yields_ok proper

theorem appendDigits_lt (bound : significand < significandBound) (digits : List Char) :
    (appendDigits significand digits).1 < significandBound := by
  induction digits generalizing significand with
  | nil => exact bound
  | cons c digits ih =>
    unfold appendDigits
    dsimp only
    split
    · next fits => exact ih fits
    · exact bound

theorem yields_readFraction (bound : significand < significandBound) (negative : Bool)
    (exponent : Int) (cs : List Char) :
    Yields (readFraction negative significand exponent cs) fun (n, _) => n.Proper := by
  unfold readFraction
  refine yields_guard ?_
  exact yields_readScale (appendDigits_lt bound _) negative _ _

/-- The number at the front of a text. -/
theorem yields_read (negative : Bool) (cs : List Char) :
    Yields (read negative cs) fun (n, _) => n.Proper := by
  have bound := appendDigits_lt (by decide : 0 < significandBound) (cs.takeWhile Char.isDigit)
  unfold read
  refine yields_guard (yields_guard ?_)
  dsimp only
  split
  · exact yields_readFraction bound negative _ _
  · split
    · exact yields_ok (proper_integer bound negative)
    · exact yields_readScale bound negative _ _

end JsonNumber

namespace Json

/-! ### Documents -/

theorem proper_ofMembers {given : List (String × Json)} (each : ∀ m ∈ given, m.2.Proper) :
    (ofMembers given).Proper :=
  .object (fun m mem => each m (mem_of_mem_inOrder mem)) (ordered_inOrder given)

theorem yields_readWord {j : Json} (proper : j.Proper) (letters cs : List Char) :
    Yields (readWord j letters cs) fun (j, _) => j.Proper := by
  induction letters generalizing cs with
  | nil => exact yields_ok proper
  | cons letter letters ih =>
    cases cs with
    | nil => exact yields_error
    | cons c cs =>
      unfold readWord
      split
      · exact ih cs
      · exact yields_error

section Containers

variable {item : List Char → Except JsonFault (Taken Json)}

theorem yields_readItems (each : ∀ cs, Yields (item cs) fun (j, _) => j.Proper) (n : Nat)
    (cs : List Char) : Yields (readItems item n cs) fun (js, _) => ∀ j ∈ js, j.Proper := by
  induction n generalizing cs with
  | zero => exact yields_error
  | succ n ih =>
    unfold readItems
    refine (each cs).bind fun (j, cs) proper => ?_
    dsimp only
    split
    · exact yields_error
    · exact yields_ok (List.forall_mem_singleton.mpr proper)
    · split
      · exact yields_error
      · exact yields_error
      · exact (ih _).bind fun (js, rest) others =>
          yields_ok (List.forall_mem_cons.mpr ⟨proper, others⟩)
    · exact yields_error

theorem yields_readMembers (each : ∀ cs, Yields (item cs) fun (j, _) => j.Proper) (n : Nat)
    (cs : List Char) : Yields (readMembers item n cs) fun (ms, _) => ∀ m ∈ ms, m.2.Proper := by
  induction n generalizing cs with
  | zero => exact yields_error
  | succ n ih =>
    unfold readMembers
    split
    · exact yields_error
    · next rest _ =>
      have named : Yields (readString rest) fun _ => True := fun _ _ => trivial
      refine named.bind fun (name, rest) _ => ?_
      dsimp only
      split
      · exact yields_error
      · refine (each _).bind fun (j, rest) proper => ?_
        dsimp only
        split
        · exact yields_error
        · exact yields_ok (List.forall_mem_singleton.mpr proper)
        · exact (ih _).bind fun (ms, rest) others =>
            yields_ok (List.forall_mem_cons.mpr ⟨proper, others⟩)
        · exact yields_error
      · exact yields_error
    · exact yields_error

end Containers

/-- The document at the front of a text. -/
theorem yields_readDocument (nesting : Nat) (cs : List Char) :
    Yields (readDocument nesting cs) fun (j, _) => j.Proper := by
  -- Containers are read with one level less for what is in them.
  induction nesting using Nat.strong_induction_on generalizing cs with
  | h nesting ih =>
    unfold readDocument
    split
    · exact yields_error
    · exact yields_readWord .null _ _
    · exact yields_readWord (.boolean true) _ _
    · exact yields_readWord (.boolean false) _ _
    · next rest _ =>
      have body : Yields (readString rest) fun _ => True := fun _ _ => trivial
      exact body.map fun (s, rest) _ => .string s
    · exact (JsonNumber.yields_read true _).map fun (n, rest) proper => .number proper
    · split
      · exact yields_error
      · next inner =>
        split
        · exact yields_ok (.array nofun)
        · exact (yields_readItems (ih inner (Nat.lt_succ_self _)) _ _).map
            fun (js, rest) each => .array each
    · split
      · exact yields_error
      · next inner =>
        split
        · exact yields_ok (.object nofun .nil)
        · exact (yields_readMembers (ih inner (Nat.lt_succ_self _)) _ _).map
            fun (ms, rest) each => proper_ofMembers each
    · split
      · exact (JsonNumber.yields_read false _).map fun (n, rest) proper => .number proper
      · exact yields_error

/-- Documents read from texts are in good order. -/
theorem proper_of_parse {text : String} {j : Json} (parsed : parse text = .ok j) : j.Proper := by
  have proper : Yields (parse text) Proper := by
    unfold parse
    refine (yields_readDocument _ _).bind fun (j, rest) proper => ?_
    dsimp only
    split
    · exact yields_ok proper
    · exact yields_error
  exact proper j parsed

end Json

end TreeQuery
