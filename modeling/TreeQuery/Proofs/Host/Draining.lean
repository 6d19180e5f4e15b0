import TreeQuery.Proofs.Host.Footprint

/-!
# Taking elements one by one

Sources that list their elements are cursors over them: the elements that are left are those from
the position of the cursor on. The elements may hold streams themselves, their own one among them,
so a set of streams leads to others, through the elements that are left.

Taking an element moves one cursor by one position and changes no other. So an element that was
taken is left no more, every other one is, and there is one element less to take.

## Main definitions

* `Host.Stocks`, `Host.Left` — what a source has left
* `Host.Leads` — the streams that some streams lead to
* `Host.Drained` — the hosts before and after some elements were taken
* `Host.stock` — how many elements all sources have left

## Main statements

* `Host.Drained.left_iff` — what was taken is left no more, and everything else is
* `Host.Drained.nodup` — no element is taken twice
* `Host.Drained.log` — the log shows what was taken
-/

namespace TreeQuery

/-- A stream that a value holds somewhere inside. -/
inductive Value.Mentions : Value → StreamId → Prop
  | stream (id : StreamId) : Mentions (.stream id) id
  | item {items : List Value} {v : Value} {id : StreamId} (mem : v ∈ items)
      (inside : Mentions v id) : Mentions (.array items) id
  | member {members : List (String × Value)} {m : String × Value} {id : StreamId}
      (mem : m ∈ members) (inside : Mentions m.2 id) : Mentions (.object members) id
  | field {type : RecordType} {values : List Value} {v : Value} {id : StreamId} (mem : v ∈ values)
      (inside : Mentions v id) : Mentions (.record type values) id

/-- The streams that a value holds. -/
def Value.streams (v : Value) : Set StreamId := {id | v.Mentions id}

namespace Value

theorem streams_stream (id : StreamId) : (Value.stream id).streams = {id} := by
  ext id'
  constructor
  · rintro ⟨⟩
    rfl
  · rintro rfl
    exact .stream _

theorem streams_array (items : List Value) :
    (Value.array items).streams = {id | ∃ v ∈ items, id ∈ v.streams} := by
  ext id
  constructor
  · rintro (_ | ⟨mem, inside⟩)
    exact ⟨_, mem, inside⟩
  · rintro ⟨v, mem, inside⟩
    exact .item mem inside

theorem streams_object (members : List (String × Value)) :
    (Value.object members).streams = {id | ∃ m ∈ members, id ∈ m.2.streams} := by
  ext id
  constructor
  · rintro (_ | _ | ⟨mem, inside⟩)
    exact ⟨_, mem, inside⟩
  · rintro ⟨m, mem, inside⟩
    exact .member mem inside

theorem streams_record (type : RecordType) (values : List Value) :
    (Value.record type values).streams = {id | ∃ v ∈ values, id ∈ v.streams} := by
  ext id
  constructor
  · rintro (_ | _ | _ | ⟨mem, inside⟩)
    exact ⟨_, mem, inside⟩
  · rintro ⟨v, mem, inside⟩
    exact .field mem inside

end Value

/-- An element that was taken, with the stream that it was taken from and its position there. -/
structure Taken where
  stream : StreamId
  position : Nat
  value : Value

/-- Where it was taken. -/
def Taken.place (t : Taken) : StreamId × Nat := (t.stream, t.position)

/-- The event that an element was taken, if it is one. -/
def Event.place? : Event → Option (StreamId × Nat)
  | pull id position _ => some (id, position)
  | _ => none

@[simp] theorem Event.place?_pull (id : StreamId) (position : Nat) (failure : Option EvalError) :
    (pull id position failure).place? = some (id, position) := rfl

@[simp] theorem Event.place?_exhausted (id : StreamId) : (exhausted id).place? = none := rfl

/-- How many items a source has left; one that never ends counts for nothing. -/
def StreamCell.left (cell : StreamCell) : Nat :=
  match cell.cursor with
  | .source { supply := .listed items, .. } => items.length
  | _ => 0

namespace Host

variable {h h' : Host} {id : StreamId} {t : Taken} {taken : List Taken} {p q : Nat} {v w : Value}
  {vs ws : List Value} {S : Set StreamId}

/-- A source that is not busy lists these elements, from that position on. -/
def Stocks (h : Host) (id : StreamId) (p : Nat) (vs : List Value) : Prop :=
  ∃ label shown,
    h.streams[id.index]? = some ⟨.source ⟨label, shown, .listed (vs.map .element), p⟩, false⟩

/-- A source still has this element to give, at that position. -/
def Left (h : Host) (id : StreamId) (q : Nat) (v : Value) : Prop :=
  ∃ p vs, h.Stocks id p vs ∧ p ≤ q ∧ vs[q - p]? = some v

/-- A source has no element left. -/
def Ended (h : Host) (id : StreamId) : Prop := ∃ p, h.Stocks id p []

/-- The streams that are in the set, or in elements that are left of streams that it leads to. -/
inductive Leads (h : Host) (S : Set StreamId) : StreamId → Prop
  | start {id : StreamId} (mem : id ∈ S) : Leads h S id
  | through {id id' : StreamId} {q : Nat} {v : Value} (leads : Leads h S id) (left : h.Left id q v)
      (inside : v.Mentions id') : Leads h S id'

/-- All that the streams lead to are sources that list their elements. -/
def Ready (h : Host) (S : Set StreamId) : Prop := ∀ id, h.Leads S id → ∃ p vs, h.Stocks id p vs

/-- How many elements all sources have left. -/
def stock (h : Host) : Nat := (h.streams.toList.map StreamCell.left).sum

/-! ### What is left -/

theorem Stocks.unique (stocks : h.Stocks id p vs) (stocks' : h.Stocks id q ws) :
    p = q ∧ vs = ws := by
  obtain ⟨label, shown, found⟩ := stocks
  obtain ⟨label', shown', found'⟩ := stocks'
  have same := Option.some.inj (found.symm.trans found')
  simp only [StreamCell.mk.injEq, Cursor.source.injEq, Source.mk.injEq, Supply.listed.injEq] at same
  obtain ⟨⟨-, -, listed, position⟩, -⟩ := same
  exact ⟨position, List.map_injective_iff.mpr (fun _ _ => Item.element.inj) listed⟩

theorem Stocks.left_iff (stocks : h.Stocks id p vs) :
    h.Left id q v ↔ p ≤ q ∧ vs[q - p]? = some v := by
  constructor
  · rintro ⟨p', vs', stocks', le, found⟩
    obtain ⟨rfl, rfl⟩ := stocks.unique stocks'
    exact ⟨le, found⟩
  · rintro ⟨le, found⟩
    exact ⟨p, vs, stocks, le, found⟩

theorem Left.unique (left : h.Left id q v) (left' : h.Left id q w) : v = w := by
  obtain ⟨p, vs, stocks, -, found⟩ := left
  exact Option.some.inj (found.symm.trans (stocks.left_iff.mp left').2)

theorem Ended.not_left (ended : h.Ended id) : ¬ h.Left id q v := by
  obtain ⟨p, stocks⟩ := ended
  rw [stocks.left_iff]
  rintro ⟨-, ⟨⟩⟩

/-- Without an element left, a source has ended. -/
theorem Stocks.ended (stocks : h.Stocks id p vs) (none : ∀ q v, ¬ h.Left id q v) : h.Ended id := by
  cases vs with
  | nil => exact ⟨p, stocks⟩
  | cons v vs => exact absurd (stocks.left_iff.mpr ⟨Nat.le_refl p, by simp⟩) (none p v)

/-- What leads to streams that lead to others, leads to these. -/
theorem Leads.trans {S' : Set StreamId} (leads : h.Leads S' id)
    (led : ∀ id ∈ S', h.Leads S id) : h.Leads S id := by
  induction leads with
  | start mem => exact led _ mem
  | through _ left inside ih => exact .through ih left inside

theorem Leads.mono {S' : Set StreamId} (sub : S ⊆ S') (leads : h.Leads S id) : h.Leads S' id :=
  leads.trans fun _ mem => .start (sub mem)

/-- With fewer elements left, fewer streams are led to. -/
theorem Leads.of_left (fewer : ∀ id q v, h'.Left id q v → h.Left id q v)
    (leads : h'.Leads S id) : h.Leads S id := by
  induction leads with
  | start mem => exact .start mem
  | through _ left inside ih => exact .through ih (fewer _ _ _ left) inside

theorem Ready.of_leads {S' : Set StreamId} (ready : h.Ready S) (led : ∀ id ∈ S', h.Leads S id) :
    h.Ready S' :=
  fun id leads => ready id (leads.trans led)

theorem Ready.mono {S' : Set StreamId} (ready : h.Ready S) (sub : S' ⊆ S) : h.Ready S' :=
  ready.of_leads fun _ mem => .start (sub mem)

/-! ### Taking one element -/

/-- One element is taken: its cursor is moved by one position, and the log shows it. -/
def Takes (h : Host) (t : Taken) (h' : Host) : Prop :=
  ∃ label shown vs,
    h.streams[t.stream.index]? =
      some ⟨.source ⟨label, shown, .listed ((t.value :: vs).map .element), t.position⟩, false⟩ ∧
    h' = (h.setCursor t.stream
      (.source ⟨label, shown, .listed (vs.map .element), t.position + 1⟩)).record
        (.pull t.stream t.position none)

theorem Takes.left (takes : h.Takes t h') : h.Left t.stream t.position t.value := by
  obtain ⟨label, shown, vs, found, -⟩ := takes
  exact ⟨t.position, t.value :: vs, ⟨label, shown, found⟩, Nat.le_refl _, by simp⟩

/-- Of the elements that its source lists, it was the first. -/
theorem Takes.exists_stocks (takes : h.Takes t h') :
    ∃ vs, h.Stocks t.stream t.position (t.value :: vs) ∧
      h'.Stocks t.stream (t.position + 1) vs := by
  obtain ⟨label, shown, vs, found, rfl⟩ := takes
  exact ⟨vs, ⟨label, shown, found⟩, label, shown, getElem?_modifyStream found⟩

theorem Takes.stocks_iff_of_ne (takes : h.Takes t h') (other : id ≠ t.stream) :
    h'.Stocks id p vs ↔ h.Stocks id p vs := by
  obtain ⟨label, shown, rest, -, rfl⟩ := takes
  simp only [Stocks]
  rw [show ((h.setCursor t.stream _).record _).streams[id.index]? = h.streams[id.index]? from
    getElem?_modifyStream_of_ne other]

/-- What was taken is left no more, and everything else is. -/
theorem Takes.left_iff (takes : h.Takes t h') :
    h'.Left id q v ↔ h.Left id q v ∧ (id, q) ≠ t.place := by
  by_cases same : id = t.stream
  · subst same
    obtain ⟨vs, before, after⟩ := takes.exists_stocks
    rw [before.left_iff, after.left_iff]
    constructor
    · rintro ⟨le, found⟩
      obtain ⟨k, rfl⟩ := Nat.exists_eq_add_of_le le
      refine ⟨⟨by omega, ?_⟩, fun same => ?_⟩
      · rwa [show t.position + 1 + k - t.position = (t.position + 1 + k - (t.position + 1)) + 1 by
          omega, List.getElem?_cons_succ]
      · have := (Prod.mk.inj same).2
        omega
    · rintro ⟨⟨le, found⟩, apart⟩
      have ne : q ≠ t.position := fun same => apart (Prod.ext rfl same)
      obtain ⟨k, rfl⟩ := Nat.exists_eq_add_of_le (Nat.lt_of_le_of_ne le ne.symm)
      refine ⟨by omega, ?_⟩
      rwa [show t.position.succ + k - t.position = (t.position.succ + k - (t.position + 1)) + 1 by
          omega, List.getElem?_cons_succ] at found
  · have apart : (id, q) ≠ t.place := fun place => same (Prod.mk.inj place).1
    simp only [Left, takes.stocks_iff_of_ne same, ne_eq, apart, not_false_eq_true, and_true]

/-- Sources go on listing elements. -/
theorem Takes.stocks (takes : h.Takes t h') (stocks : h.Stocks id p vs) :
    ∃ q ws, p ≤ q ∧ h'.Stocks id q ws := by
  by_cases same : id = t.stream
  · subst same
    obtain ⟨rest, before, after⟩ := takes.exists_stocks
    obtain ⟨rfl, -⟩ := before.unique stocks
    exact ⟨_, rest, Nat.le_succ _, after⟩
  · exact ⟨p, vs, Nat.le_refl p, (takes.stocks_iff_of_ne same).mpr stocks⟩

/-- A change to one entry changes a sum over all of them by as much. -/
theorem sum_modify {α : Type} {l : List α} {i : Nat} {a : α} (found : l[i]? = some a) (f : α → α)
    (g : α → Nat) : ((l.modify i f).map g).sum + g a = (l.map g).sum + g (f a) := by
  induction l generalizing i with
  | nil => cases found
  | cons b l ih =>
    cases i with
    | zero =>
      cases found
      simp
      omega
    | succ i =>
      have := ih found
      simp
      omega

theorem Takes.stock_eq (takes : h.Takes t h') : h'.stock + 1 = h.stock := by
  obtain ⟨label, shown, vs, found, rfl⟩ := takes
  have total := sum_modify (Array.getElem?_toList ▸ found)
    (fun cell => { cell with cursor := .source ⟨label, shown, .listed (vs.map .element),
      t.position + 1⟩ }) StreamCell.left
  simp only [StreamCell.left, List.length_map, List.length_cons] at total
  simp only [stock, record, setCursor, modifyStream, Array.toList_modify]
  omega

/-! ### Taking several elements -/

/-- Elements were taken one after the other, and in between it was seen that sources had ended. -/
inductive Drained : Host → List Taken → Host → Prop
  | refl (h : Host) : Drained h [] h
  | take {h h₁ h' : Host} {t : Taken} {taken : List Taken} (takes : h.Takes t h₁)
      (rest : Drained h₁ taken h') : Drained h (t :: taken) h'
  | finish {h h' : Host} {id : StreamId} {taken : List Taken} (ended : h.Ended id)
      (rest : Drained (h.record (.exhausted id)) taken h') : Drained h taken h'

theorem Drained.trans {taken' : List Taken} {h'' : Host} (first : h.Drained taken h')
    (second : h'.Drained taken' h'') : h.Drained (taken ++ taken') h'' := by
  induction first with
  | refl => exact second
  | take takes _ ih => exact .take takes (ih second)
  | finish ended _ ih => exact .finish ended (ih second)

/-- What was taken is left no more, and everything else is. -/
theorem Drained.left_iff (drained : h.Drained taken h') :
    h'.Left id q v ↔ h.Left id q v ∧ (id, q) ∉ taken.map Taken.place := by
  induction drained with
  | refl => simp
  | take takes _ ih =>
    rw [ih, takes.left_iff, List.map_cons, List.mem_cons, not_or, and_assoc]
  | finish _ _ ih => exact ih

theorem Drained.left (drained : h.Drained taken h') (left : h'.Left id q v) : h.Left id q v :=
  (drained.left_iff.mp left).1

/-- What was taken had been left. -/
theorem Drained.left_of_mem (drained : h.Drained taken h') (mem : t ∈ taken) :
    h.Left t.stream t.position t.value := by
  induction drained with
  | refl => cases mem
  | take takes _ ih =>
    rcases List.mem_cons.mp mem with rfl | mem
    · exact takes.left
    · exact (takes.left_iff.mp (ih mem)).1
  | finish _ _ ih => exact ih mem

/-- What is left in a stream that has ended afterwards was taken. -/
theorem Drained.mem_of_ended (drained : h.Drained taken h') (ended : h'.Ended id)
    (left : h.Left id q v) : ⟨id, q, v⟩ ∈ taken := by
  have place : (id, q) ∈ taken.map Taken.place := by
    by_contra apart
    exact ended.not_left (drained.left_iff.mpr ⟨left, apart⟩)
  obtain ⟨t, mem, same⟩ := List.mem_map.mp place
  obtain ⟨rfl, rfl⟩ := Prod.mk.inj same
  rwa [left.unique (drained.left_of_mem mem)]

/-- No element is taken twice. -/
theorem Drained.nodup (drained : h.Drained taken h') : (taken.map Taken.place).Nodup := by
  induction drained with
  | refl => exact List.nodup_nil
  | take takes rest ih =>
    refine List.nodup_cons.mpr ⟨fun mem => ?_, ih⟩
    obtain ⟨t', mem, same⟩ := List.mem_map.mp mem
    exact (takes.left_iff.mp (rest.left_of_mem mem)).2 same
  | finish _ _ ih => exact ih

/-- The log shows what was taken, in that order. -/
theorem Drained.log (drained : h.Drained taken h') : ∃ events, h'.log = h.log ++ events ∧
    events.toList.filterMap Event.place? = taken.map Taken.place := by
  induction drained with
  | refl => exact ⟨#[], by simp⟩
  | @take h h₁ h' t taken takes _ ih =>
    obtain ⟨events, logged, places⟩ := ih
    refine ⟨#[.pull t.stream t.position none] ++ events, ?_, ?_⟩
    · obtain ⟨label, shown, vs, -, rfl⟩ := takes
      rw [logged, ← Array.append_assoc]
      rfl
    · simp [places, Taken.place]
  | @finish h h' id taken _ _ ih =>
    obtain ⟨events, logged, places⟩ := ih
    refine ⟨#[.exhausted id] ++ events, ?_, ?_⟩
    · rw [logged, ← Array.append_assoc]
      rfl
    · simp [places, List.filterMap_cons]

theorem Drained.stock_le (drained : h.Drained taken h') : h'.stock ≤ h.stock := by
  induction drained with
  | refl => exact Nat.le_refl _
  | take takes _ ih => exact ih.trans (Nat.le_of_lt (Nat.lt_of_succ_le takes.stock_eq.le))
  | finish _ _ ih => exact ih

/-- Sources go on listing elements. -/
theorem Drained.stocks (drained : h.Drained taken h') (stocks : h.Stocks id p vs) :
    ∃ q ws, p ≤ q ∧ h'.Stocks id q ws := by
  induction drained generalizing p vs with
  | refl => exact ⟨p, vs, Nat.le_refl p, stocks⟩
  | take takes _ ih =>
    obtain ⟨q, ws, le, stocks'⟩ := takes.stocks stocks
    obtain ⟨r, us, le', stocks''⟩ := ih stocks'
    exact ⟨r, us, le.trans le', stocks''⟩
  | finish _ _ ih => exact ih stocks

theorem Drained.leads (drained : h.Drained taken h') (leads : h'.Leads S id) : h.Leads S id :=
  leads.of_left fun _ _ _ left => drained.left left

theorem Drained.ready (drained : h.Drained taken h') (ready : h.Ready S) : h'.Ready S := by
  intro id leads
  obtain ⟨p, vs, stocks⟩ := ready id (drained.leads leads)
  obtain ⟨q, ws, -, stocks'⟩ := drained.stocks stocks
  exact ⟨q, ws, stocks'⟩

/-- What has ended stays so. -/
theorem Drained.ended (drained : h.Drained taken h') (ended : h.Ended id) : h'.Ended id := by
  obtain ⟨p, stocks⟩ := ended
  obtain ⟨q, ws, -, stocks'⟩ := drained.stocks stocks
  exact stocks'.ended fun r w left => Ended.not_left ⟨p, stocks⟩ (drained.left left)

end Host

end TreeQuery
