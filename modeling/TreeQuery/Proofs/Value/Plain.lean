import TreeQuery.Proofs.Decimal.Finite
import TreeQuery.Value

/-!
# Plain values

A value that a document can stand for has the shapes of JSON, and its floats are finite. Documents
keep the members of an object in the order of their names, which values need not do, so that a value
comes back from its document with members in another order, and nothing else.

## Main definitions

* `Value.Plain` — values that documents can stand for
* `Value.Rearranged` — the same value, but for the order of members

## Main statements

* `Value.Rearranged.same` — rearranged values are equal
-/

namespace TreeQuery

namespace Value

/-- The value has only the shapes of JSON, no name stands twice in an object, and floats are finite.
-/
inductive Plain : Value → Prop
  | null : Plain .null
  | boolean (b : Bool) : Plain (.boolean b)
  | integer (n : Int64) : Plain (.integer n)
  | float {x : Float} (finite : x.isFinite = true) : Plain (.float x)
  | string (s : String) : Plain (.string s)
  | array {items : List Value} (each : ∀ v ∈ items, Plain v) : Plain (.array items)
  | object {members : List (String × Value)} (each : ∀ m ∈ members, Plain m.2)
      (names : (members.map Prod.fst).Nodup) : Plain (.object members)

/-- The members of objects may stand in another order. Everything else is the same, floats to the
bit. -/
inductive Rearranged : Value → Value → Prop
  | null : Rearranged .null .null
  | boolean (b : Bool) : Rearranged (.boolean b) (.boolean b)
  | integer (n : Int64) : Rearranged (.integer n) (.integer n)
  | float (x : Float) : Rearranged (.float x) (.float x)
  | string (s : String) : Rearranged (.string s) (.string s)
  | array {vs ws : List Value} (length : vs.length = ws.length)
      (each : ∀ (i : Nat) (v w : Value), vs[i]? = some v → ws[i]? = some w → Rearranged v w) :
      Rearranged (.array vs) (.array ws)
  | object {ms ns : List (String × Value)} (names : (ms.map Prod.fst).Perm (ns.map Prod.fst))
      (each : ∀ name v w, (name, v) ∈ ms → (name, w) ∈ ns → Rearranged v w) :
      Rearranged (.object ms) (.object ns)

variable {v w : Value}

/-! ### Equality -/

section Same

variable {vs ws : List Value} {ms ns : List (String × Value)}

/-- Finite floats are equal to themselves. -/
theorem float_beq_self {x : Float} (finite : x.isFinite = true) : (x == x) = true := by
  have same : Float.Model.UnpackedFloat.beq (Binary64.parts x) (Binary64.parts x) = true := by
    rcases Binary64.cases_of_isFinite finite with ⟨s, zero⟩ | ⟨s, m, e, canonical, same⟩
    · rw [zero]
      rfl
    · rw [same]
      cases s <;>
        simp [Float.Model.UnpackedFloat.beq, Float.Model.UnpackedFloat.compare]
  exact same

theorem sameItems_of_each (length : vs.length = ws.length)
    (each : ∀ (i : Nat) (v w : Value), vs[i]? = some v → ws[i]? = some w → v.same w = true) :
    sameItems vs ws = true := by
  induction vs generalizing ws with
  | nil =>
    cases ws with
    | nil => rfl
    | cons w ws => cases length
  | cons v vs ih =>
    cases ws with
    | nil => cases length
    | cons w ws =>
      rw [sameItems, each 0 v w rfl rfl, Bool.true_and]
      exact ih (Nat.succ.inj length) fun i => each (i + 1)

theorem sameMembers_of_each
    (each : ∀ m ∈ ms, ∃ w, ns.lookup m.1 = some w ∧ m.2.same w = true) :
    sameMembers ms ns = true := by
  induction ms with
  | nil => rfl
  | cons m ms ih =>
    obtain ⟨⟨w, found, same⟩, others⟩ := List.forall_mem_cons.mp each
    rw [sameMembers, found, ih others, Bool.and_true]
    exact same

/-- A name that an object has finds a member. -/
theorem exists_lookup {name : String} (mem : name ∈ ns.map Prod.fst) :
    ∃ w, ns.lookup name = some w := by
  cases found : ns.lookup name with
  | some w => exact ⟨w, rfl⟩
  | none =>
    obtain ⟨m, mem', rfl⟩ := List.mem_map.mp mem
    exact absurd (beq_self_eq_true m.1) (by simpa using List.lookup_eq_none_iff.mp found m mem')

/-- Rearranged values are equal. -/
theorem Rearranged.same (h : Rearranged v w) (plain : Plain w) : v.same w = true := by
  induction h with
  | null => rfl
  | boolean b => simp [Value.same]
  | integer n => simp [Value.same]
  | float x =>
    cases plain with
    | float finite => exact float_beq_self finite
  | string s => simp [Value.same]
  | @array vs ws length each ih =>
    cases plain with
    | array plain =>
      rw [Value.same]
      exact sameItems_of_each length fun i v w atV atW =>
        ih i v w atV atW (plain w (List.mem_of_getElem? atW))
  | @object ms ns names each ih =>
    cases plain with
    | object plain _ =>
      have length : ms.length = ns.length := by simpa using names.length_eq
      rw [Value.same, length, beq_self_eq_true, Bool.true_and]
      refine sameMembers_of_each fun m mem => ?_
      obtain ⟨w, found⟩ := exists_lookup (names.mem_iff.mp (List.mem_map_of_mem mem))
      exact ⟨w, found, ih m.1 m.2 w mem (mem_of_lookup found) (plain _ (mem_of_lookup found))⟩

end Same

end Value

end TreeQuery
