import TreeQuery.Proofs.Evaluation.Draining

/-!
# Other orders of members

Nothing fixes the order in which the members of an object are gone through. A value in another order
is the same value, but that the members of every object in it, however deep, may be gone through in
any order.

## Main definitions

* `Value.Reordered` — the same value with members in another order
* `Item.Reordered`, `Host.Reordered` — the same for the elements that sources list

## Main statements

* `Value.reordered_refl`, `Host.reordered_refl` — the order that there is, is one of them
* `Value.Reordered.streams_eq` — the same streams are in the value
-/

namespace TreeQuery

namespace Value

mutual

/-- The second value is the first one with the members of objects in another order. -/
def Reordered : Value → Value → Prop
  | .array vs, w => ∃ ws, w = .array ws ∧ ReorderedAll vs ws
  | .object ms, w => ∃ ns given, w = .object ns ∧ ReorderedMembers ms given ∧ given.Perm ns
  | .record type vs, w => ∃ ws, w = .record type ws ∧ ReorderedAll vs ws
  | v, w => w = v

/-- The same for values one after the other. -/
def ReorderedAll : List Value → List Value → Prop
  | [], ws => ws = []
  | v :: vs, ws => ∃ w ws', ws = w :: ws' ∧ Reordered v w ∧ ReorderedAll vs ws'

/-- The same for named members one after the other. -/
def ReorderedMembers : List (String × Value) → List (String × Value) → Prop
  | [], ns => ns = []
  | (name, v) :: ms, ns => ∃ w ns', ns = (name, w) :: ns' ∧ Reordered v w ∧ ReorderedMembers ms ns'

end

variable {v w : Value} {vs ws : List Value} {ms ns : List (String × Value)}

theorem reorderedAll_iff : ReorderedAll vs ws ↔ List.Forall₂ Reordered vs ws := by
  induction vs generalizing ws with
  | nil => simp [ReorderedAll]
  | cons v vs ih =>
    simp only [ReorderedAll, List.forall₂_cons_left_iff, ih]
    exact ⟨fun ⟨w, ws', eq, same, all⟩ => ⟨w, ws', same, all, eq⟩,
      fun ⟨w, ws', same, all, eq⟩ => ⟨w, ws', eq, same, all⟩⟩

theorem reorderedMembers_iff : ReorderedMembers ms ns ↔
    List.Forall₂ (fun m n => m.1 = n.1 ∧ Reordered m.2 n.2) ms ns := by
  induction ms generalizing ns with
  | nil => simp [ReorderedMembers]
  | cons m ms ih =>
    simp only [ReorderedMembers, List.forall₂_cons_left_iff, ih]
    constructor
    · rintro ⟨w, ns', eq, same, all⟩
      exact ⟨(m.1, w), ns', ⟨rfl, same⟩, all, eq⟩
    · rintro ⟨⟨name, w⟩, ns', ⟨rfl, same⟩, all, eq⟩
      exact ⟨w, ns', eq, same, all⟩

/-- The order that there is, is one of the orders. -/
theorem reordered_refl (v : Value) : Reordered v v := by
  induction v using Value.induction_parts with
  | array vs ih => exact ⟨vs, rfl, reorderedAll_iff.mpr (List.forall₂_same.mpr ih)⟩
  | object ms ih =>
    refine ⟨ms, ms, rfl, reorderedMembers_iff.mpr ?_, .refl ms⟩
    exact List.forall₂_same.mpr fun m mem => ⟨rfl, ih m mem⟩
  | record type vs ih => exact ⟨vs, rfl, reorderedAll_iff.mpr (List.forall₂_same.mpr ih)⟩
  | stream id => rfl
  | plain v plain => cases v <;> first | exact plain.elim | rfl

theorem exists_mem_left_iff {α β : Type} {R : α → β → Prop} {p : α → Prop} {q : β → Prop}
    {as : List α} {bs : List β} (each : List.Forall₂ R as bs)
    (same : ∀ a ∈ as, ∀ b, R a b → (p a ↔ q b)) : (∃ a ∈ as, p a) ↔ ∃ b ∈ bs, q b := by
  induction each with
  | nil => simp
  | cons first _ ih =>
    rw [List.exists_mem_cons_iff, List.exists_mem_cons_iff]
    exact or_congr (same _ (List.mem_cons_self ..) _ first)
      (ih fun a mem => same a (List.mem_cons_of_mem _ mem))

/-- A value without parts stays as it is. -/
theorem Reordered.eq_of_partless (h : Reordered v w) (partless : v.SettledWithin 0) : w = v := by
  cases v <;> first | exact partless.elim | exact h

/-- The same streams are in the value. -/
theorem Reordered.streams_eq (h : Reordered v w) : w.streams = v.streams := by
  induction v using Value.induction_parts generalizing w with
  | array vs ih =>
    obtain ⟨ws, rfl, all⟩ := h
    rw [streams_array, streams_array]
    ext id
    exact (exists_mem_left_iff (reorderedAll_iff.mp all) fun v mem w same =>
      by rw [ih v mem same]).symm
  | object ms ih =>
    obtain ⟨ns, given, rfl, all, perm⟩ := h
    rw [streams_object, streams_object]
    ext id
    have moved : (∃ n ∈ given, id ∈ n.2.streams) ↔ ∃ n ∈ ns, id ∈ n.2.streams :=
      exists_congr fun n => and_congr_left fun _ => perm.mem_iff
    refine moved.symm.trans (exists_mem_left_iff (reorderedMembers_iff.mp all) ?_).symm
    exact fun m mem n same => by rw [ih m mem same.2]
  | record type vs ih =>
    obtain ⟨ws, rfl, all⟩ := h
    rw [streams_record, streams_record]
    ext id
    exact (exists_mem_left_iff (reorderedAll_iff.mp all) fun v mem w same =>
      by rw [ih v mem same]).symm
  | stream id =>
    obtain rfl : w = .stream id := h
    rfl
  | plain v plain =>
    rw [h.eq_of_partless plain]

end Value

/-- The second item is the first one, with the members of an element in another order. -/
def Item.Reordered : Item → Item → Prop
  | element v, i => ∃ w, i = .element w ∧ v.Reordered w
  | i, i' => i' = i

/-- Elements and what is listed after them are reordered each on their own. -/
theorem exists_of_reordered_items {vs : List Value} {rest items : List Item}
    (each : List.Forall₂ Item.Reordered (vs.map .element ++ rest) items) :
    ∃ ws rest', items = ws.map .element ++ rest' ∧ List.Forall₂ Value.Reordered vs ws ∧
      List.Forall₂ Item.Reordered rest rest' := by
  induction vs generalizing items with
  | nil => exact ⟨[], items, rfl, .nil, each⟩
  | cons v vs ih =>
    obtain ⟨_, items, ⟨w, rfl, same⟩, others, rfl⟩ := List.forall₂_cons_left_iff.mp each
    obtain ⟨ws, rest', rfl, sames, left⟩ := ih others
    exact ⟨w :: ws, rest', rfl, .cons same sames, left⟩

/-- The second host has as many streams. Where the first one has a source that lists its items, it
has one that lists the same items with the members of elements in another order. Streams on top of
others are the same. -/
structure Host.Reordered (h h' : Host) : Prop where
  size : h'.streams.size = h.streams.size
  listed : ∀ (id : StreamId) (s : Source) (items : List Item),
    h.streams[id.index]? = some ⟨.source s, false⟩ → s.supply = .listed items →
    ∃ (s' : Source) (items' : List Item), h'.streams[id.index]? = some ⟨.source s', false⟩ ∧
      s'.supply = .listed items' ∧ List.Forall₂ Item.Reordered items items'
  onTop : ∀ (id : StreamId) (c : Cursor), h.streams[id.index]? = some ⟨c, false⟩ →
    (∀ s, c ≠ .source s) → h'.streams[id.index]? = some ⟨c, false⟩

theorem Item.reordered_refl (i : Item) : Item.Reordered i i := by
  cases i with
  | element v => exact ⟨v, rfl, Value.reordered_refl v⟩
  | failure e => rfl
  | pull name => rfl

/-- The orders that there are, are among the orders. -/
theorem Host.reordered_refl (h : Host) : h.Reordered h where
  size := rfl
  listed _ s items found listed :=
    ⟨s, items, found, listed, List.forall₂_same.mpr fun i _ => i.reordered_refl⟩
  onTop _ _ found _ := found

end TreeQuery
