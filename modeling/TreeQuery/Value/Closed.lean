import TreeQuery.Value

/-!
# Closed values

A value without links and streams is all there is to it: nothing has to be asked of a host.

## Main definitions

* `Value.isClosed` — whether a value has no links and streams
* `Value.depth` — how deep a value's parts stand inside each other
* `Value.ClosedWithin` — closed and no deeper than a bound
-/

namespace TreeQuery

namespace Value

mutual

/-- Whether a value has no links and streams in it. -/
def isClosed : Value → Bool
  | array items => allClosed items
  | object members => allMembersClosed members
  | record _ values => allClosed values
  | link _ => false
  | stream _ => false
  | _ => true

/-- Whether no value has links and streams in it. -/
def allClosed : List Value → Bool
  | [] => true
  | v :: vs => v.isClosed && allClosed vs

/-- Whether no member has links and streams in it. -/
def allMembersClosed : List (String × Value) → Bool
  | [] => true
  | (_, v) :: ms => v.isClosed && allMembersClosed ms

end

mutual

/-- How deep arrays, objects and records stand inside each other. -/
def depth : Value → Nat
  | array items => itemsDepth items + 1
  | object members => membersDepth members + 1
  | record _ values => itemsDepth values + 1
  | _ => 0

/-- The depth of the deepest value. -/
def itemsDepth : List Value → Nat
  | [] => 0
  | v :: vs => max v.depth (itemsDepth vs)

/-- The depth of the deepest member. -/
def membersDepth : List (String × Value) → Nat
  | [] => 0
  | (_, v) :: ms => max v.depth (membersDepth ms)

end

theorem allClosed_iff {vs : List Value} : allClosed vs = true ↔ ∀ v ∈ vs, v.isClosed = true := by
  induction vs with
  | nil => simp [allClosed]
  | cons v vs ih => simp [allClosed, ih]

theorem allMembersClosed_iff {ms : List (String × Value)} :
    allMembersClosed ms = true ↔ ∀ m ∈ ms, m.2.isClosed = true := by
  induction ms with
  | nil => simp [allMembersClosed]
  | cons m ms ih => simp [allMembersClosed, ih]

theorem itemsDepth_le_iff {vs : List Value} {d : Nat} :
    itemsDepth vs ≤ d ↔ ∀ v ∈ vs, v.depth ≤ d := by
  induction vs with
  | nil => simp [itemsDepth]
  | cons v vs ih => simp only [itemsDepth, Nat.max_le, ih, List.forall_mem_cons]

theorem membersDepth_le_iff {ms : List (String × Value)} {d : Nat} :
    membersDepth ms ≤ d ↔ ∀ m ∈ ms, m.2.depth ≤ d := by
  induction ms with
  | nil => simp [membersDepth]
  | cons m ms ih => simp only [membersDepth, Nat.max_le, ih, List.forall_mem_cons]

/-- A closed value no deeper than `d`. -/
def ClosedWithin (d : Nat) (v : Value) : Prop := v.isClosed = true ∧ v.depth ≤ d

theorem ClosedWithin.mono {d d' : Nat} {v : Value} (h : ClosedWithin d v) (hd : d ≤ d') :
    ClosedWithin d' v :=
  ⟨h.1, Nat.le_trans h.2 hd⟩

theorem closedWithin_array_iff {d : Nat} {items : List Value} :
    ClosedWithin (d + 1) (.array items) ↔ ∀ v ∈ items, ClosedWithin d v := by
  simp only [ClosedWithin, isClosed, allClosed_iff, depth, Nat.add_le_add_iff_right,
    itemsDepth_le_iff, imp_and, forall_and]

theorem closedWithin_object_iff {d : Nat} {members : List (String × Value)} :
    ClosedWithin (d + 1) (.object members) ↔ ∀ m ∈ members, ClosedWithin d m.2 := by
  simp only [ClosedWithin, isClosed, allMembersClosed_iff, depth, Nat.add_le_add_iff_right,
    membersDepth_le_iff, imp_and, forall_and]

theorem closedWithin_record_iff {d : Nat} {type : RecordType} {values : List Value} :
    ClosedWithin (d + 1) (.record type values) ↔ ∀ v ∈ values, ClosedWithin d v := by
  simp only [ClosedWithin, isClosed, allClosed_iff, depth, Nat.add_le_add_iff_right,
    itemsDepth_le_iff, imp_and, forall_and]

theorem closedWithin_ofMembers {d : Nat} {members : List (String × Value)}
    (h : ∀ m ∈ members, ClosedWithin d m.2) : ClosedWithin (d + 1) (.ofMembers members) :=
  closedWithin_object_iff.mpr fun m mem => h m (mem_of_mem_collectMembers mem)

/-- The items of a closed array are closed, and stand less deep. -/
theorem ClosedWithin.items {d : Nat} {items : List Value} (h : ClosedWithin d (.array items)) :
    ∃ d', d = d' + 1 ∧ ∀ v ∈ items, ClosedWithin d' v := by
  obtain ⟨d', rfl⟩ : ∃ d', d = d' + 1 := ⟨d - 1, by have := h.2; rw [depth] at this; omega⟩
  exact ⟨d', rfl, closedWithin_array_iff.mp h⟩

/-- The members of a closed object are closed, and stand less deep. -/
theorem ClosedWithin.members {d : Nat} {members : List (String × Value)}
    (h : ClosedWithin d (.object members)) :
    ∃ d', d = d' + 1 ∧ ∀ m ∈ members, ClosedWithin d' m.2 := by
  obtain ⟨d', rfl⟩ : ∃ d', d = d' + 1 := ⟨d - 1, by have := h.2; rw [depth] at this; omega⟩
  exact ⟨d', rfl, closedWithin_object_iff.mp h⟩

/-- The values of a closed record are closed, and stand less deep. -/
theorem ClosedWithin.fields {d : Nat} {type : RecordType} {values : List Value}
    (h : ClosedWithin d (.record type values)) :
    ∃ d', d = d' + 1 ∧ ∀ v ∈ values, ClosedWithin d' v := by
  obtain ⟨d', rfl⟩ : ∃ d', d = d' + 1 := ⟨d - 1, by have := h.2; rw [depth] at this; omega⟩
  exact ⟨d', rfl, closedWithin_record_iff.mp h⟩

/-- A value without parts that is no link and no stream is closed. -/
theorem closedWithin_of_flat {d : Nat} {v : Value} (closed : v.isClosed = true)
    (flat : v.depth = 0) : ClosedWithin d v :=
  ⟨closed, flat ▸ Nat.zero_le d⟩

theorem not_closedWithin_link {d : Nat} {id : LinkId} : ¬ ClosedWithin d (.link id) :=
  fun h => Bool.false_ne_true h.1

theorem not_closedWithin_stream {d : Nat} {id : StreamId} : ¬ ClosedWithin d (.stream id) :=
  fun h => Bool.false_ne_true h.1

/-- What a name finds in a closed value is closed. -/
theorem closedWithin_member? {d : Nat} {v w : Value} {name : String} (h : ClosedWithin d v)
    (found : v.member? name = some w) : ClosedWithin d w := by
  cases v with
  | object members =>
    obtain ⟨d', rfl, closed⟩ := h.members
    exact (closed _ (mem_of_lookup found)).mono (Nat.le_succ _)
  | record type values =>
    obtain ⟨d', rfl, closed⟩ := h.fields
    obtain ⟨i, _, at_i⟩ := Option.bind_eq_some_iff.mp found
    exact (closed _ (List.mem_of_getElem? at_i)).mono (Nat.le_succ _)
  | _ => cases found

end Value

end TreeQuery
