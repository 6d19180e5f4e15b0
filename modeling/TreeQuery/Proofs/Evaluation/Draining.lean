import TreeQuery.Proofs.Evaluation.Settled
import TreeQuery.Proofs.Host.Draining

/-!
# Draining is complete

Settling goes through a value from the left to the right and turns every stream in it into an array.
The elements of a stream are settled one by one as they are taken, and to settle one of them may
drain other streams, or the very stream that it was taken from: the rest of the stream then goes
into the element, and the array ends after it. Whatever happens, each element that is left in one of
the streams that the value leads to is taken once and has one place in the result.

It all comes to an end, since there is one element less with every pull that gives one.

## Main definitions

* `Unfolds` — a value with its streams replaced by what was taken from them
* `Evaluation.Emptied` — what is left after settling what some streams lead to

## Main statements

* `Evaluation.empties_all` — settling comes to an end, and leaves nothing
* `Evaluation.draining_complete` — the same, said of what the value leads to
-/

namespace TreeQuery

mutual

/-- The second value is the first one with every stream in it replaced by an array. The items of the
array are what elements of the stream unfold to, in ascending order of their positions. All of the
elements are listed in the order in which they come up. -/
inductive Unfolds : Value → Value → List Taken → Prop
  /-- Without a stream in it, a value stays as it is. -/
  | settled {v : Value} (settled : v.Settled) : Unfolds v v []
  | array {vs ws : List Value} {taken : List Taken} (items : UnfoldsAll vs ws taken) :
      Unfolds (.array vs) (.array ws) taken
  | object {ms ms' : List (String × Value)} {taken : List Taken}
      (names : ms.map Prod.fst = ms'.map Prod.fst)
      (members : UnfoldsAll (ms.map Prod.snd) (ms'.map Prod.snd) taken) :
      Unfolds (.object ms) (.object ms') taken
  | record {type : RecordType} {vs ws : List Value} {taken : List Taken}
      (fields : UnfoldsAll vs ws taken) : Unfolds (.record type vs) (.record type ws) taken
  | stream {id : StreamId} {ws : List Value} {taken : List Taken}
      (elements : UnfoldsFrom id 0 ws taken) : Unfolds (.stream id) (.array ws) taken

/-- The same for values one after the other. -/
inductive UnfoldsAll : List Value → List Value → List Taken → Prop
  | nil : UnfoldsAll [] [] []
  | cons {v w : Value} {vs ws : List Value} {taken taken' : List Taken}
      (first : Unfolds v w taken) (rest : UnfoldsAll vs ws taken') :
      UnfoldsAll (v :: vs) (w :: ws) (taken ++ taken')

/-- The values are what elements of a stream unfold to, none of them before a position. -/
inductive UnfoldsFrom : StreamId → Nat → List Value → List Taken → Prop
  | nil {id : StreamId} {p : Nat} : UnfoldsFrom id p [] []
  | cons {id : StreamId} {p q : Nat} {v w : Value} {ws : List Value} {taken taken' : List Taken}
      (le : p ≤ q) (first : Unfolds v w taken) (rest : UnfoldsFrom id (q + 1) ws taken') :
      UnfoldsFrom id p (w :: ws) (⟨id, q, v⟩ :: (taken ++ taken'))

end

theorem UnfoldsFrom.mono {id : StreamId} {p q : Nat} {ws : List Value} {taken : List Taken}
    (h : UnfoldsFrom id q ws taken) (le : p ≤ q) : UnfoldsFrom id p ws taken := by
  cases h with
  | nil => exact .nil
  | cons le' first rest => exact .cons (le.trans le') first rest

namespace Value

/-- A value without parts that is no stream holds none. -/
theorem SettledWithin.streams_eq {v : Value} (plain : v.SettledWithin 0) : v.streams = ∅ := by
  apply Set.eq_empty_of_forall_notMem
  rintro id (_ | _ | _ | _) <;> exact plain.elim

end Value

namespace Evaluation

open Host Run Value

variable {h h₁ h₂ h' : Host} {id : StreamId} {t : Taken} {taken taken' : List Taken} {p : Nat}
  {v : Value} {vs : List Value} {S S' : Set StreamId}

/-! ### Pulls -/

theorem reaches_pull_ended (ended : h.Ended id) :
    Reaches (fun n => pull n id) h (.ok none) (h.record (.exhausted id)) := by
  obtain ⟨p, label, shown, found⟩ := ended
  have pulls := reaches_pull found (reaches_advance_listed_nil rfl)
  rwa [show ((h.setBusy id true).record (.exhausted id)).setBusy id false =
    ((h.setBusy id true).setBusy id false).record (.exhausted id) from rfl,
    setBusy_setBusy found] at pulls

/-- A pull takes the first element that is left. -/
theorem exists_reaches_pull (stocks : h.Stocks id p (v :: vs)) :
    ∃ h', Reaches (fun n => pull n id) h (.ok (some v)) h' ∧ h.Takes ⟨id, p, v⟩ h' := by
  obtain ⟨label, shown, found⟩ := stocks
  let c : Cursor := .source ⟨label, shown, .listed (vs.map .element), p + 1⟩
  have found' : (h.setCursor id c).streams[id.index]? = some ⟨c, false⟩ :=
    getElem?_modifyStream found
  have pulls := reaches_pull found (reaches_advance_listed_cons rfl)
  rw [setCursor_setBusy, show (((h.setCursor id c).setBusy id true).record
    (.pull id p none)).setBusy id false = (((h.setCursor id c).setBusy id true).setBusy id
      false).record (.pull id p none) from rfl, setBusy_setBusy found'] at pulls
  exact ⟨_, pulls, label, shown, vs, found, rfl⟩

/-! ### What is left -/

/-- The elements were taken from streams that the set leads to. The streams of the set have ended,
and so have those that the elements hold. -/
structure Emptied (h : Host) (S : Set StreamId) (taken : List Taken) (h' : Host) : Prop where
  drained : h.Drained taken h'
  led : ∀ t ∈ taken, h.Leads S t.stream
  ends : ∀ id ∈ S, h'.Ended id
  follows : ∀ t ∈ taken, ∀ id ∈ t.value.streams, h'.Ended id

theorem emptied_empty (h : Host) : Emptied h ∅ [] h :=
  ⟨.refl h, nofun, fun _ mem => mem.elim, nofun⟩

theorem emptied_of_ended (ended : h.Ended id) : Emptied h {id} [] (h.record (.exhausted id)) :=
  ⟨.finish ended (.refl _), nofun, by rintro _ rfl; exact ended, nofun⟩

theorem Emptied.append (first : Emptied h S taken h₁) (second : Emptied h₁ S' taken' h') :
    Emptied h (S ∪ S') (taken ++ taken') h' where
  drained := first.drained.trans second.drained
  led := by
    refine List.forall_mem_append.mpr ⟨fun t mem => ?_, fun t mem => ?_⟩
    · exact (first.led t mem).mono Set.subset_union_left
    · exact (first.drained.leads (second.led t mem)).mono Set.subset_union_right
  ends := by
    rintro id (mem | mem)
    · exact second.drained.ended (first.ends id mem)
    · exact second.ends id mem
  follows := by
    refine List.forall_mem_append.mpr ⟨fun t mem id inside => ?_, second.follows⟩
    exact second.drained.ended (first.follows t mem id inside)

/-- An element is taken, then what it holds is emptied, then its own stream. -/
theorem Emptied.of_takes (takes : h.Takes t h₁) (inside : Emptied h₁ t.value.streams taken h₂)
    (rest : Emptied h₂ {t.stream} taken' h') :
    Emptied h {t.stream} (t :: (taken ++ taken')) h' := by
  have later := inside.append rest
  have own : h.Leads {t.stream} t.stream := .start rfl
  -- What is led to now was led to before, from the stream by way of the element.
  refine ⟨.take takes later.drained, ?_, fun id mem => later.ends id (.inr mem), ?_⟩
  · refine List.forall_mem_cons.mpr ⟨own, fun t' mem => ?_⟩
    have led := (later.led t' mem).of_left fun _ _ _ left => (takes.left_iff.mp left).1
    refine led.trans fun id mem => ?_
    rcases mem with mem | rfl
    · exact .through own takes.left mem
    · exact own
  · exact List.forall_mem_cons.mpr ⟨fun id mem => later.ends id (.inl mem), later.follows⟩

/-- All streams that are led to have ended, through however many elements. -/
theorem Emptied.ended_of_leads (emptied : Emptied h S taken h') (leads : h.Leads S id) :
    h'.Ended id := by
  induction leads with
  | start mem => exact emptied.ends _ mem
  | through _ left inside ih =>
    -- The element was left in a stream that has ended meanwhile, so it was taken.
    exact emptied.follows _ (emptied.drained.mem_of_ended ih left) _ inside

/-- The evaluation comes to a value and leaves nothing of what the streams lead to. -/
def Drains {α : Type} (r : (allowance : Nat) → Evaluation α) (S : Set StreamId) (h : Host)
    (good : α → List Taken → Prop) : Prop :=
  ∃ a taken h', Reaches r h (.ok a) h' ∧ good a taken ∧ Emptied h S taken h'

theorem Drains.imp {α : Type} {r : (allowance : Nat) → Evaluation α}
    {good good' : α → List Taken → Prop} (drains : Drains r S h good)
    (weaker : ∀ a taken, good a taken → good' a taken) : Drains r S h good' := by
  obtain ⟨a, taken, h', reached, holds, emptied⟩ := drains
  exact ⟨a, taken, h', reached, weaker a taken holds, emptied⟩

/-! ### Settling -/

/-- What settling comes to while there are fewer than `n` elements to take. -/
structure Empties (n : Nat) : Prop where
  settle : ∀ v h, h.stock < n → h.Ready v.streams →
    Drains (fun n => settle n v) v.streams h (Unfolds v)
  drain : ∀ id h p vs, h.stock < n → h.Ready {id} → h.Stocks id p vs →
    Drains (fun n => drain n id) {id} h (UnfoldsFrom id p)

theorem Empties.drain_succ {n : Nat} (ih : Empties n) (small : h.stock < n + 1)
    (ready : h.Ready {id}) (stocks : h.Stocks id p vs) :
    Drains (fun n => Evaluation.drain n id) {id} h (UnfoldsFrom id p) := by
  cases vs with
  | nil =>
    have ended : h.Ended id := ⟨p, stocks⟩
    exact ⟨[], [], _, reaches_drain_none (reaches_pull_ended ended), .nil, emptied_of_ended ended⟩
  | cons v vs =>
    obtain ⟨h₁, pulls, takes⟩ := exists_reaches_pull stocks
    have moved : h.Drained [⟨id, p, v⟩] h₁ := .take takes (.refl h₁)
    have fewer := takes.stock_eq
    have inside : h₁.Ready v.streams :=
      moved.ready (ready.of_leads fun _ mem => .through (.start rfl) takes.left mem)
    obtain ⟨w, taken, h₂, settles, unfolds, emptied⟩ := ih.settle v h₁ (by omega) inside
    -- Meanwhile the stream may have been drained further.
    obtain ⟨_, -, stocks₁⟩ := takes.exists_stocks
    obtain ⟨q, ws, le, stocks₂⟩ := emptied.drained.stocks stocks₁
    have fewer' := emptied.drained.stock_le
    obtain ⟨us, taken', h', drains, rest, emptied'⟩ :=
      ih.drain id h₂ q ws (by omega) (emptied.drained.ready (moved.ready ready)) stocks₂
    exact ⟨w :: us, _, h', reaches_drain_some pulls settles drains,
      .cons (Nat.le_refl p) unfolds (rest.mono le), .of_takes takes emptied emptied'⟩

/-- Of several values, the streams that each one holds are emptied in turn. -/
theorem exists_inTurn_drains {α β : Type} {run : α → (allowance : Nat) → Evaluation β}
    {f : α → Value} {g : β → Value} {R : α → β → Prop} {n : Nat} {as : List α}
    (each : ∀ a ∈ as, ∀ h, h.stock < n → h.Ready (f a).streams →
      Drains (run a) (f a).streams h fun b taken => R a b ∧ Unfolds (f a) (g b) taken)
    (small : h.stock < n) (ready : h.Ready {id | ∃ a ∈ as, id ∈ (f a).streams}) :
    ∃ bs taken h', InTurn run as h (.ok bs) h' ∧ List.Forall₂ R as bs ∧
      UnfoldsAll (as.map f) (bs.map g) taken ∧
      Emptied h {id | ∃ a ∈ as, id ∈ (f a).streams} taken h' := by
  induction as generalizing h with
  | nil => exact ⟨[], [], h, .nil h, .nil, .nil, by simpa using emptied_empty h⟩
  | cons a as ih =>
    have parts : {id | ∃ a' ∈ a :: as, id ∈ (f a').streams} =
        (f a).streams ∪ {id | ∃ a' ∈ as, id ∈ (f a').streams} := by
      ext id
      simp
    rw [parts] at ready ⊢
    rw [List.forall_mem_cons] at each
    obtain ⟨b, taken, h₁, gives, ⟨same, unfolds⟩, emptied⟩ :=
      each.1 h small (ready.mono Set.subset_union_left)
    obtain ⟨bs, taken', h', turns, sames, rest, emptied'⟩ :=
      ih each.2 (emptied.drained.stock_le.trans_lt small)
        (emptied.drained.ready (ready.mono Set.subset_union_right))
    exact ⟨b :: bs, _, h', .value gives turns, .cons same sames, .cons unfolds rest,
      emptied.append emptied'⟩

/-- The same for the values of a list, which are settled. -/
theorem exists_inTurn_settle {n : Nat}
    (each : ∀ v ∈ vs, ∀ h, h.stock < n → h.Ready v.streams →
      Drains (fun n => settle n v) v.streams h (Unfolds v))
    (small : h.stock < n) (ready : h.Ready {id | ∃ v ∈ vs, id ∈ v.streams}) :
    ∃ ws taken h', InTurn (fun v n => settle n v) vs h (.ok ws) h' ∧ UnfoldsAll vs ws taken ∧
      Emptied h {id | ∃ v ∈ vs, id ∈ v.streams} taken h' := by
  obtain ⟨ws, taken, h', turns, -, unfolds, emptied⟩ :=
    exists_inTurn_drains (f := id) (g := id) (R := fun _ _ => True)
      (fun v mem h small ready => (each v mem h small ready).imp fun _ _ unfolds =>
        ⟨trivial, unfolds⟩) small ready
  simp only [List.map_id] at unfolds
  exact ⟨ws, taken, h', turns, unfolds, emptied⟩

theorem Empties.settle_succ {n : Nat} (ih : Empties n) (v : Value) :
    ∀ h, h.stock < n + 1 → h.Ready v.streams →
      Drains (fun n => Evaluation.settle n v) v.streams h (Unfolds v) := by
  induction v using Value.induction_parts with
  | array vs each =>
    intro h small ready
    rw [streams_array] at ready ⊢
    obtain ⟨ws, taken, h', turns, items, emptied⟩ := exists_inTurn_settle each small ready
    exact ⟨_, taken, h', reaches_settle_array turns, .array items, emptied⟩
  | object ms each =>
    intro h small ready
    rw [streams_object] at ready ⊢
    obtain ⟨ms', taken, h', turns, names, members, emptied⟩ :=
      exists_inTurn_drains (g := Prod.snd) (R := fun m m' => m.1 = m'.1)
        (fun m mem h small ready => by
          obtain ⟨w, taken, h', settles, unfolds, emptied⟩ := each m mem h small ready
          exact ⟨(m.1, w), taken, h', reaches_settleMember settles, ⟨rfl, unfolds⟩, emptied⟩)
        small ready
    have same := List.forall₂_map_right_iff.mpr (List.forall₂_map_left_iff.mpr names)
    exact ⟨_, taken, h', reaches_settle_object turns,
      .object (List.forall₂_eq_eq_eq ▸ same) members, emptied⟩
  | record type vs each =>
    intro h small ready
    rw [streams_record] at ready ⊢
    obtain ⟨ws, taken, h', turns, fields, emptied⟩ := exists_inTurn_settle each small ready
    exact ⟨_, taken, h', reaches_settle_record turns, .record fields, emptied⟩
  -- Only here does the allowance count: it goes down when an element is taken.
  | stream id =>
    intro h small ready
    rw [streams_stream] at ready ⊢
    obtain ⟨p, vs, stocks⟩ := ready id (.start rfl)
    obtain ⟨ws, taken, h', drains, elements, emptied⟩ := ih.drain_succ small ready stocks
    exact ⟨_, taken, h', reaches_settle_stream drains, .stream (elements.mono (Nat.zero_le p)),
      emptied⟩
  | plain v plain =>
    intro h small ready
    have settled : v.Settled := ⟨0, plain⟩
    rw [plain.streams_eq]
    exact ⟨v, [], h, (reaches_settle_of_settled settled).mpr ⟨rfl, rfl⟩, .settled settled,
      emptied_empty h⟩

/-- Settling comes to an end and leaves nothing, however many elements there are to take. -/
theorem empties_all (n : Nat) : Empties n := by
  induction n with
  | zero =>
    exact ⟨fun _ _ few => absurd few (Nat.not_lt_zero _),
      fun _ _ _ _ few => absurd few (Nat.not_lt_zero _)⟩
  | succ n ih =>
    exact ⟨fun v h => ih.settle_succ v h, fun _ _ _ _ few ready stocks =>
      ih.drain_succ few ready stocks⟩

/-- All streams that a value leads to, through elements that are left of them, are sources that list
their elements; they may be shared in any way and lead to themselves. Settling the value comes to an
end. In the result each stream is replaced by an array of what was taken from it, in the order of
its cursor, and everything else is as before. What was taken is all that was left in the streams
that the value leads to, each element is taken once, and the log shows just that. Afterwards the
streams have ended, and settling the result again does nothing. -/
theorem draining_complete {h : Host} {v : Value} (ready : h.Ready v.streams) :
    ∃ w taken h', Reaches (fun n => settle n v) h (.ok w) h' ∧ w.Settled ∧ Unfolds v w taken ∧
      (taken.map Taken.place).Nodup ∧
      (∀ t, t ∈ taken ↔ h.Leads v.streams t.stream ∧ h.Left t.stream t.position t.value) ∧
      (∃ events, h'.log = h.log ++ events ∧
        events.toList.filterMap Event.place? = taken.map Taken.place) ∧
      (∀ id, h.Leads v.streams id → h'.Ended id) ∧
      ∀ g, Reaches (fun n => settle n w) g (.ok w) g := by
  obtain ⟨w, taken, h', settles, unfolds, emptied⟩ :=
    (empties_all (h.stock + 1)).settle v h (Nat.lt_succ_self _) ready
  have settled : w.Settled := by
    obtain ⟨n, ho⟩ := settles
    exact settle_meets n v h _ _ ho
  have drained := emptied.drained
  have all (t : Taken) :
      t ∈ taken ↔ h.Leads v.streams t.stream ∧ h.Left t.stream t.position t.value :=
    ⟨fun mem => ⟨emptied.led t mem, drained.left_of_mem mem⟩, fun ⟨leads, left⟩ =>
      drained.mem_of_ended (emptied.ended_of_leads leads) left⟩
  exact ⟨w, taken, h', settles, settled, unfolds, drained.nodup, all, drained.log,
    fun id leads => emptied.ended_of_leads leads,
    fun g => (reaches_settle_of_settled settled).mpr ⟨rfl, rfl⟩⟩

/-- A host with a stream that is an element of itself. -/
def selfContaining : Host :=
  { Host.empty with
    streams := #[⟨.source ⟨"s", true,
      .listed ([.integer 1, .stream ⟨0⟩, .integer 2].map .element), 0⟩, false⟩] }

/-- The same host after all elements were taken. -/
def selfContained : Host where
  links := #[]
  streams := #[⟨.source ⟨"s", true, .listed [], 3⟩, false⟩]
  names := []
  log := #[.pull ⟨0⟩ 0 none, .pull ⟨0⟩ 1 none, .pull ⟨0⟩ 2 none, .exhausted ⟨0⟩, .exhausted ⟨0⟩,
    .exhausted ⟨0⟩]

/-- What is left of the stream goes into the element that is the stream itself, and what comes after
that is empty. -/
theorem draining_complete_self :
    selfContaining.Ready (Value.array [.stream ⟨0⟩, .stream ⟨0⟩]).streams ∧
      Reaches (fun n => settle n (.array [.stream ⟨0⟩, .stream ⟨0⟩])) selfContaining
        (.ok (.array [.array [.integer 1, .array [.integer 2]], .array []])) selfContained ∧
      ∃ taken, Unfolds (.array [.stream ⟨0⟩, .stream ⟨0⟩])
          (.array [.array [.integer 1, .array [.integer 2]], .array []]) taken ∧
        taken.map Taken.place = [(⟨0⟩, 0), (⟨0⟩, 1), (⟨0⟩, 2)] := by
  have stocks : selfContaining.Stocks ⟨0⟩ 0 [.integer 1, .stream ⟨0⟩, .integer 2] :=
    ⟨"s", true, rfl⟩
  -- The stream leads to itself and to no other.
  have only (id : StreamId)
      (leads : selfContaining.Leads (Value.array [.stream ⟨0⟩, .stream ⟨0⟩]).streams id) :
      id = ⟨0⟩ := by
    induction leads with
    | start mem => simpa [streams_array, streams_stream] using mem
    | @through _ id' q v _ left inside ih =>
      subst ih
      have mem := List.mem_of_getElem? (stocks.left_iff.mp left).2
      have held : id' ∈ v.streams := inside
      have none (k : Int64) : (Value.integer k).streams = ∅ := SettledWithin.streams_eq trivial
      simp only [List.mem_cons, List.not_mem_nil, or_false] at mem
      rcases mem with rfl | rfl | rfl
      · simp [none] at held
      · simpa [streams_stream] using held
      · simp [none] at held
  have ready : selfContaining.Ready (Value.array [.stream ⟨0⟩, .stream ⟨0⟩]).streams := by
    intro id leads
    rw [only id leads]
    exact ⟨_, _, stocks⟩
  have settles : Reaches (fun n => settle n (.array [.stream ⟨0⟩, .stream ⟨0⟩])) selfContaining
      (.ok (.array [.array [.integer 1, .array [.integer 2]], .array []])) selfContained :=
    ⟨9, rfl⟩
  obtain ⟨w, taken, h', settles', -, unfolds, -, -, ⟨events, logged, places⟩, -⟩ :=
    draining_complete ready
  obtain ⟨same, rfl⟩ := settles.unique settles' (steady_settle _)
  cases same
  have shown : events = selfContained.log := by
    rw [logged]
    simp [selfContaining, Host.empty]
  refine ⟨ready, settles, taken, unfolds, ?_⟩
  rw [← places, shown]
  rfl

end Evaluation

end TreeQuery
