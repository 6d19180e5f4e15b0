import TreeQuery.Evaluation.Allowance
import TreeQuery.Evaluation.Closed
import TreeQuery.Proofs.Run.InTurn

/-!
# What evaluations come to

A rule for each way in which an evaluation may come to a value, from what the evaluations nested in
it come to. Allowances do not appear in them.

## Main statements

* `Evaluation.reaches_pull` — a pull is a move of the cursor, with the stream busy meanwhile
* `Evaluation.reaches_advance_source_some` — a source gives what its next item gives
* `Evaluation.reaches_advance_some_of_contains`, `Evaluation.reaches_advance_of_not_contains` — a
  slice gives some elements of the stream that feeds it, and skips others
-/

namespace TreeQuery

namespace Slice

variable {s : Slice} {budget : Option Nat} {position : Nat}

/-- Where a slice has a stop, it has no more pulls left than there are positions before it. -/
structure Bounded (s : Slice) (budget : Option Nat) (position : Nat) : Prop where
  part : s.all = false
  stop : ∀ stop, s.stop = some stop → ∃ n, budget = some n ∧ position + n ≤ stop

theorem bounded_start (part : s.all = false) : s.Bounded s.stop 0 :=
  ⟨part, fun stop same => ⟨stop, same, by omega⟩⟩

theorem Bounded.next (bounded : s.Bounded budget position) (unspent : budget ≠ some 0) :
    s.Bounded (budget.map (· - 1)) position ∧ s.Bounded (budget.map (· - 1)) (position + 1) := by
  have left : ∀ stop, s.stop = some stop →
      ∃ n, budget = some (n + 1) ∧ position + 1 + n ≤ stop := by
    intro stop same
    obtain ⟨n, rfl, le⟩ := bounded.stop stop same
    obtain ⟨n, rfl⟩ : ∃ m, n = m + 1 := Nat.exists_eq_succ_of_ne_zero fun zero =>
      unspent (congrArg some zero)
    exact ⟨n, rfl, by omega⟩
  constructor
  · refine ⟨bounded.part, fun stop same => ?_⟩
    obtain ⟨n, rfl, le⟩ := left stop same
    exact ⟨n, rfl, by omega⟩
  · refine ⟨bounded.part, fun stop same => ?_⟩
    obtain ⟨n, rfl, le⟩ := left stop same
    exact ⟨n, rfl, le⟩

/-- While it may pull, a slice skips only what is before its start. -/
theorem Bounded.skips (bounded : s.Bounded budget position) (unspent : budget ≠ some 0)
    (skipped : ¬ s.contains position = true) : position < s.start := by
  by_contra started
  refine skipped ?_
  have before : s.stop.all (fun stop => position < stop) = true := by
    rw [Option.all_eq_true]
    intro stop same
    obtain ⟨n, rfl, le⟩ := bounded.stop stop same
    have : n ≠ 0 := fun zero => unspent (congrArg some zero)
    exact decide_eq_true (by omega)
  simp only [contains, before, bounded.part, Bool.and_true, Bool.false_or, decide_eq_true_eq]
  omega

end Slice

/-- What an item of a source gives on its own account. -/
def Item.given? : Item → Option (Except EvalError Value)
  | element v => some (.ok v)
  | failure e => some (.error e)
  | pull _ => none

namespace Evaluation

open Host Run

variable {h h' h'' : Host} {id feed : StreamId}

/-! ### Allowances -/

theorem steady_eval (f : Filter) (v : Value) : Steady fun n => eval n f v :=
  fun _ _ le => eval_extendedBy le f v

theorem steady_select (s : Selector) (v : Value) : Steady fun n => select n s v :=
  fun _ _ le => select_extendedBy le s v

theorem steady_settle (v : Value) : Steady fun n => settle n v :=
  fun _ _ le => settle_extendedBy le v

theorem steady_drain (id : StreamId) : Steady fun n => drain n id :=
  fun _ _ le => extendedBy_of_succ (fun n => (keeps_all n).drain id) le

theorem steady_pull (id : StreamId) : Steady fun n => pull n id :=
  fun _ _ le => pull_extendedBy le id

theorem steady_advance (id : StreamId) (c : Cursor) : Steady fun n => advance n id c :=
  fun _ _ le => extendedBy_of_succ (fun n => (keeps_all n).advance id c) le

theorem steady_transform (t : Transform) (v : Value) : Steady fun n => transform n t v :=
  fun _ _ le => extendedBy_of_succ (fun n => (keeps_all n).transform t v) le

/-! ### Settling -/

theorem reaches_settle_stream {ws : List Value}
    (drains : Reaches (fun n => drain n id) h (.ok ws) h') :
    Reaches (fun n => settle n (.stream id)) h (.ok (.array ws)) h' := by
  apply Reaches.of_succ
  simp only [settle]
  exact reaches_map.mpr ⟨_, drains, rfl⟩

theorem reaches_settle_array {vs ws : List Value}
    (turns : InTurn (fun v n => settle n v) vs h (.ok ws) h') :
    Reaches (fun n => settle n (.array vs)) h (.ok (.array ws)) h' := by
  apply Reaches.of_succ
  simp only [settle]
  exact reaches_map.mpr ⟨_, (inTurn_iff steady_settle).mp turns, rfl⟩

theorem reaches_settle_record {type : RecordType} {vs ws : List Value}
    (turns : InTurn (fun v n => settle n v) vs h (.ok ws) h') :
    Reaches (fun n => settle n (.record type vs)) h (.ok (.record type ws)) h' := by
  apply Reaches.of_succ
  simp only [settle]
  exact reaches_map.mpr ⟨_, (inTurn_iff steady_settle).mp turns, rfl⟩

/-- Settling one member of an object. -/
def settleMember (m : String × Value) (allowance : Nat) : Evaluation (String × Value) := do
  return (m.1, ← settle allowance m.2)

theorem steady_settleMember (m : String × Value) : Steady (settleMember m) :=
  (steady_settle m.2).bind fun _ => steady_const _

theorem reaches_settleMember {name : String} {v w : Value}
    (settles : Reaches (fun n => settle n v) h (.ok w) h') :
    Reaches (settleMember (name, v)) h (.ok (name, w)) h' :=
  reaches_map.mpr ⟨_, settles, rfl⟩

theorem reaches_settle_object {vs ws : List (String × Value)}
    (turns : InTurn settleMember vs h (.ok ws) h') :
    Reaches (fun n => settle n (.object vs)) h (.ok (.object ws)) h' := by
  apply Reaches.of_succ
  simp only [settle]
  exact reaches_map.mpr ⟨_, (inTurn_iff steady_settleMember).mp turns, rfl⟩

theorem reaches_drain_none (ends : Reaches (fun n => pull n id) h (.ok none) h') :
    Reaches (fun n => drain n id) h (.ok []) h' := by
  apply Reaches.of_succ
  simp only [drain]
  exact ends.bind (reaches_pure _ _) (steady_pull id) (steady_const _)

theorem reaches_drain_some {v w : Value} {ws : List Value} {h₁ h₂ : Host}
    (pulls : Reaches (fun n => pull n id) h (.ok (some v)) h₁)
    (settles : Reaches (fun n => settle n v) h₁ (.ok w) h₂)
    (drains : Reaches (fun n => drain n id) h₂ (.ok ws) h') :
    Reaches (fun n => drain n id) h (.ok (w :: ws)) h' := by
  have steady (w : Value) : Steady fun n => (do return w :: (← drain n id) : Evaluation _) :=
    (steady_drain id).bind fun _ => steady_const _
  apply Reaches.of_succ
  simp only [drain]
  refine pulls.bind ?_ (steady_pull id) ((steady_settle v).bind steady)
  refine settles.bind ?_ (steady_settle v) (steady w)
  exact reaches_map.mpr ⟨_, drains, rfl⟩

/-! ### Pulling -/

/-- A stream is busy while its cursor moves, and no longer. -/
theorem reaches_pull {c : Cursor} {taken : Option Value}
    (found : h.streams[id.index]? = some ⟨c, false⟩)
    (moves : Reaches (fun n => advance n id c) (h.setBusy id true) (.ok taken) h') :
    Reaches (fun n => pull n id) h (.ok taken) (h'.setBusy id false) := by
  apply Reaches.of_succ
  simp only [pull]
  have steady : Steady fun n => (do
      .change (Host.setBusy id true)
      let result ← Run.attempt (advance n id c)
      .change (Host.setBusy id false)
      .ofExcept result : Evaluation (Option Value)) :=
    (steady_const _).bind fun _ => (steady_advance id c).attempt.bind fun _ =>
      (steady_const _).bind fun _ => steady_const _
  have reads : Reaches (fun _ => (Run.read fun h => h.streams[id.index]? : Evaluation _)) h
      (.ok (some ⟨c, false⟩)) h := ⟨0, by rw [outcome_read, found]⟩
  refine reads.bind ?_ (steady_const _) steady
  apply reaches_change
  refine moves.attempt.bind ?_ (steady_advance id c).attempt (steady_const _)
  exact ⟨0, rfl⟩

/-- A pull moves the cursor of a stream that is not busy. -/
theorem outcome_pull {c : Cursor} (found : h.streams[id.index]? = some ⟨c, false⟩) (n : Nat) :
    (pull (n + 1) id).outcome h = ((advance n id c).outcome (h.setBusy id true)).map
      fun (result, h') => (result, h'.setBusy id false) := by
  rw [pull]
  simp only [outcome_bind, outcome_read, found, outcome_change, outcome_attempt,
    Bool.false_eq_true, if_false]
  cases (advance n id c).outcome (h.setBusy id true) with
  | none => rfl
  | some out =>
    obtain ⟨result, h'⟩ := out
    cases result <;> rfl

/-- A stream that is marked as busy and then no longer is as it was. -/
theorem setBusy_setBusy {c : Cursor} (found : h.streams[id.index]? = some ⟨c, false⟩) :
    (h.setBusy id true).setBusy id false = h := by
  have streams : (h.streams.modify id.index fun cell => { cell with busy := true }).modify id.index
      (fun cell => { cell with busy := false }) = h.streams := by
    apply Array.ext_getElem?
    intro i
    simp only [Array.getElem?_modify]
    by_cases same : id.index = i
    · subst same
      simp [found]
    · simp [same]
  simp only [setBusy, modifyStream, streams]

theorem reaches_pull_iff {c : Cursor} (found : h.streams[id.index]? = some ⟨c, false⟩)
    {result : Except EvalError (Option Value)} :
    Reaches (fun n => pull n id) h result h' ↔
      ∃ g, Reaches (fun n => advance n id c) (h.setBusy id true) result g ∧
        h' = g.setBusy id false := by
  rw [← reaches_succ (steady_pull id)]
  simp only [Reaches, outcome_pull found, Option.map_eq_some_iff, Prod.mk.injEq]
  constructor
  · rintro ⟨n, ⟨_, g⟩, moves, rfl, rfl⟩
    exact ⟨g, ⟨n, moves⟩, rfl⟩
  · rintro ⟨g, ⟨n, moves⟩, rfl⟩
    exact ⟨n, ⟨_, g⟩, moves, rfl, rfl⟩

/-- The two parts of a stream are changed independently. -/
theorem setCursor_setBusy (c : Cursor) (busy : Bool) :
    (h.setBusy id busy).setCursor id c = (h.setCursor id c).setBusy id busy := by
  have streams : (h.streams.modify id.index fun cell => { cell with busy }).modify id.index
      (fun cell => { cell with cursor := c }) =
      (h.streams.modify id.index fun cell => { cell with cursor := c }).modify id.index
        fun cell => { cell with busy } := by
    apply Array.ext_getElem?
    intro i
    simp only [Array.getElem?_modify]
    by_cases same : id.index = i
    · simp only [if_pos same, Option.map_map]
      rfl
    · simp only [if_neg same]
  simp only [setBusy, setCursor, modifyStream, streams]

/-- A source with no items left ends. -/
theorem reaches_advance_source_none {s : Source} (ended : s.take? = none) :
    Reaches (fun n => advance n id (.source s)) h (.ok none) (h.record (.exhausted id)) := by
  refine ⟨1, ?_⟩
  simp only [advance, takeItem, ended]
  rfl

/-- A source gives what its next item gives. -/
theorem reaches_advance_source_some {s s' : Source} {item : Item} {x : Except EvalError Value}
    (takes : s.take? = some (item, s')) (given : item.given? = some x) :
    Reaches (fun n => advance n id (.source s)) h (x.map some)
      ((h.setCursor id (.source s')).record (.pull id s.position item.failure?)) := by
  refine ⟨1, ?_⟩
  simp only [advance, takeItem, takes]
  cases item with
  | pull name => cases given
  | _ =>
    cases given
    rfl

theorem reaches_advance_listed_nil {s : Source} (empty : s.supply = .listed []) :
    Reaches (fun n => advance n id (.source s)) h (.ok none) (h.record (.exhausted id)) :=
  reaches_advance_source_none (by rw [Source.take?, empty])

theorem reaches_advance_listed_cons {s : Source} {v : Value} {items : List Item}
    (first : s.supply = .listed (.element v :: items)) :
    Reaches (fun n => advance n id (.source s)) h (.ok (some v))
      ((h.setCursor id
        (.source { s with supply := .listed items, position := s.position + 1 })).record
        (.pull id s.position none)) := by
  have takes : s.take? = some (.element v,
      { s with supply := .listed items, position := s.position + 1 }) := by
    rw [Source.take?, first]
  exact reaches_advance_source_some takes rfl

theorem reaches_advance_mapped_none {t : Transform}
    (ends : Reaches (fun n => pull n feed) h (.ok none) h') :
    Reaches (fun n => advance n id (.mapped feed t)) h (.ok none) h' := by
  apply Reaches.of_succ
  simp only [advance]
  exact ends.bind (reaches_pure _ _) (steady_pull feed) (steady_const _)

theorem reaches_advance_mapped_some {t : Transform} {v w : Value}
    (pulls : Reaches (fun n => pull n feed) h (.ok (some v)) h')
    (changes : Reaches (fun n => transform n t v) h' (.ok w) h'') :
    Reaches (fun n => advance n id (.mapped feed t)) h (.ok (some w)) h'' := by
  apply Reaches.of_succ
  simp only [advance]
  refine pulls.bind ?_ (steady_pull feed) ((steady_transform t v).bind fun _ => steady_const _)
  exact reaches_map.mpr ⟨_, changes, rfl⟩

/-- What is handed on by a transformed stream: its end, a failure, or what becomes of an element. -/
theorem reaches_advance_mapped_iff {t : Transform} {result : Except EvalError (Option Value)} :
    Reaches (fun n => advance n id (.mapped feed t)) h result h' ↔
      (∃ e, Reaches (fun n => pull n feed) h (.error e) h' ∧ result = .error e) ∨
        (Reaches (fun n => pull n feed) h (.ok none) h' ∧ result = .ok none) ∨
        ∃ v g changed, Reaches (fun n => pull n feed) h (.ok (some v)) g ∧
          Reaches (fun n => transform n t v) g changed h' ∧ result = changed.map some := by
  rw [← reaches_succ (steady_advance id _)]
  simp only [advance]
  refine (reaches_bind (steady_pull feed) fun taken => ?_).trans ?_
  · cases taken with
    | none => exact steady_const _
    | some v => exact (steady_transform t v).bind fun _ => steady_const _
  constructor
  · rintro (fails | ⟨_ | v, g, pulls, reached⟩)
    · exact .inl fails
    · obtain ⟨n, ho⟩ := reached
      cases ho
      exact .inr (.inl ⟨pulls, rfl⟩)
    · obtain ⟨changed, changes, rfl⟩ := reaches_map.mp reached
      exact .inr (.inr ⟨v, g, changed, pulls, changes, rfl⟩)
  · rintro (fails | ⟨ends, rfl⟩ | ⟨v, g, changed, pulls, changes, rfl⟩)
    · exact .inl fails
    · exact .inr ⟨none, h', ends, reaches_pure _ _⟩
    · exact .inr ⟨some v, g, pulls, reaches_map.mpr ⟨changed, changes, rfl⟩⟩

/-- A slice whose pulls are used up has ended. -/
theorem reaches_advance_spent {s : Slice} {position : Nat} :
    Reaches (fun n => advance n id (.sliced feed s (some 0) position)) h (.ok none) h :=
  ⟨1, rfl⟩

section Sliced

variable {s : Slice} {budget : Option Nat} {position : Nat}

/-- A slice that may pull does so once, and goes on if it skips what it gets. -/
theorem outcome_advance_sliced (unspent : budget ≠ some 0) (n : Nat) :
    (advance (n + 1) id (.sliced feed s budget position)).outcome h =
      match (pull n feed).outcome
        (h.setCursor id (.sliced feed s (budget.map (· - 1)) position)) with
      | none => none
      | some (.ok none, h') => some (.ok none, h')
      | some (.ok (some v), h') =>
        let c := Cursor.sliced feed s (budget.map (· - 1)) (position + 1)
        if s.contains position then some (.ok (some v), h'.setCursor id c)
        else (advance n id c).outcome (h'.setCursor id c)
      | some (.error e, h') => some (.error e,
          h'.setCursor id (.sliced feed s (budget.map (· - 1)) (position + 1))) := by
  rw [advance]
  · simp only [outcome_bind, outcome_change, outcome_attempt]
    cases (pull n feed).outcome (h.setCursor id _) with
    | none => rfl
    | some out =>
      obtain ⟨e | _ | v, h'⟩ := out
      · rfl
      · rfl
      · by_cases contains : s.contains position = true
        · simp only [Option.map_some, outcome_bind, outcome_change, if_pos contains]
          rfl
        · simp only [Option.map_some, outcome_bind, outcome_change, if_neg contains]
  · exact unspent

theorem reaches_advance_sliced_iff (unspent : budget ≠ some 0)
    {result : Except EvalError (Option Value)} :
    Reaches (fun n => advance n id (.sliced feed s budget position)) h result h' ↔
      ∃ taken g, Reaches (fun n => pull n feed)
          (h.setCursor id (.sliced feed s (budget.map (· - 1)) position)) taken g ∧
        match taken with
        | .ok none => result = .ok none ∧ h' = g
        | .error e => result = .error e ∧
            h' = g.setCursor id (.sliced feed s (budget.map (· - 1)) (position + 1))
        | .ok (some v) =>
          let c := Cursor.sliced feed s (budget.map (· - 1)) (position + 1)
          if s.contains position then result = .ok (some v) ∧ h' = g.setCursor id c
          else Reaches (fun n => advance n id c) (g.setCursor id c) result h' := by
  rw [← reaches_succ (steady_advance id _)]
  simp only [Reaches, outcome_advance_sliced unspent]
  constructor
  · rintro ⟨n, ho⟩
    cases pulls : (pull n feed).outcome
        (h.setCursor id (.sliced feed s (budget.map (· - 1)) position)) with
    | none =>
      rw [pulls] at ho
      cases ho
    | some out =>
      obtain ⟨taken, g⟩ := out
      refine ⟨taken, g, ⟨n, pulls⟩, ?_⟩
      rw [pulls] at ho
      rcases taken with e | _ | v
      · cases ho
        exact ⟨rfl, rfl⟩
      · cases ho
        exact ⟨rfl, rfl⟩
      · by_cases contains : s.contains position = true
        · simp only [if_pos contains] at ho ⊢
          cases ho
          exact ⟨rfl, rfl⟩
        · simp only [if_neg contains] at ho ⊢
          exact ⟨n, ho⟩
  · rintro ⟨taken, g, ⟨n, pulls⟩, rest⟩
    rcases taken with e | _ | v
    · obtain ⟨rfl, rfl⟩ := rest
      exact ⟨n, by rw [pulls]⟩
    · obtain ⟨rfl, rfl⟩ := rest
      exact ⟨n, by rw [pulls]⟩
    · by_cases contains : s.contains position = true
      · simp only [if_pos contains] at rest ⊢
        obtain ⟨rfl, rfl⟩ := rest
        exact ⟨n, by rw [pulls]⟩
      · simp only [if_neg contains] at rest ⊢
        -- The pull and what goes on from it may need different allowances.
        obtain ⟨m, le, goesOn⟩ := Reaches.of_le rest (steady_advance id _) n
        exact ⟨m, by rw [steady_pull feed le _ _ pulls]; exact goesOn⟩

/-- A slice that may pull, when the stream that feeds it has ended. -/
theorem reaches_advance_sliced_none (unspent : budget ≠ some 0)
    (ends : Reaches (fun n => pull n feed)
      (h.setCursor id (.sliced feed s (budget.map (· - 1)) position)) (.ok none) h') :
    Reaches (fun n => advance n id (.sliced feed s budget position)) h (.ok none) h' := by
  apply Reaches.of_succ
  simp only [advance]
  apply reaches_change
  exact ends.attempt.bind (reaches_pure _ _) (steady_pull feed).attempt (steady_const _)

/-- A slice gives an element of the stream that feeds it if it contains its position. -/
theorem reaches_advance_some_of_contains {v : Value} (unspent : budget ≠ some 0)
    (contains : s.contains position = true)
    (pulls : Reaches (fun n => pull n feed)
      (h.setCursor id (.sliced feed s (budget.map (· - 1)) position)) (.ok (some v)) h') :
    Reaches (fun n => advance n id (.sliced feed s budget position)) h (.ok (some v))
      (h'.setCursor id (.sliced feed s (budget.map (· - 1)) (position + 1))) := by
  apply Reaches.of_succ
  simp only [advance]
  apply reaches_change
  refine pulls.attempt.bind ?_ (steady_pull feed).attempt ?_
  · apply reaches_change
    simp only [if_pos contains]
    exact reaches_pure _ _
  · simp only [if_pos contains]
    exact steady_const _

/-- Otherwise it goes on to the next one. -/
theorem reaches_advance_of_not_contains {v : Value} {result : Except EvalError (Option Value)}
    (unspent : budget ≠ some 0) (contains : ¬ s.contains position = true)
    (pulls : Reaches (fun n => pull n feed)
      (h.setCursor id (.sliced feed s (budget.map (· - 1)) position)) (.ok (some v)) h')
    (goesOn : Reaches
      (fun n => advance n id (.sliced feed s (budget.map (· - 1)) (position + 1)))
      (h'.setCursor id (.sliced feed s (budget.map (· - 1)) (position + 1))) result h'') :
    Reaches (fun n => advance n id (.sliced feed s budget position)) h result h'' := by
  apply Reaches.of_succ
  simp only [advance]
  apply reaches_change
  refine pulls.attempt.bind ?_ (steady_pull feed).attempt ?_
  · apply reaches_change
    simp only [if_neg contains]
    exact goesOn
  · simp only [if_neg contains]
    exact (steady_const _).bind fun _ => steady_advance id _

end Sliced

/-! ### Values at hand -/

section AtHand

variable {v : Value} (noLink : v.kind ≠ .link)
include noLink

theorem eval_select (n : Nat) (s : Selector) : eval (n + 1) (.select s) v = select n s v := by
  cases v <;> first | exact absurd rfl noLink | rfl

theorem eval_path (n : Nat) (steps : List Selector) :
    eval (n + 1) (.path steps) v = steps.foldlM (fun v s => select n s v) v := by
  cases v <;> first | exact absurd rfl noLink | rfl

theorem eval_pipe (n : Nat) (stages : List Filter) :
    eval (n + 1) (.pipe stages) v = stages.foldlM (fun v f => eval n f v) v := by
  cases v <;> first | exact absurd rfl noLink | rfl

theorem select_identity (n : Nat) : select (n + 1) .identity v = pure v := by
  cases v <;> first | exact absurd rfl noLink | rfl

variable (noStream : v.kind ≠ .stream)
include noStream

/-- Without links, arrays and streams, a name is looked up in the value itself. -/
theorem select_key (noArray : v.kind ≠ .array) (n : Nat) (name : String) :
    select (n + 1) (.key name) v = pure ((v.member? name).getD .null) := by
  cases v <;> first
    | exact absurd rfl noLink
    | exact absurd rfl noArray
    | exact absurd rfl noStream
    | rfl

theorem eval_text (n : Nat) (s : String) : eval (n + 1) (.text s) v = pure (.string s) := by
  cases v <;> first | exact absurd rfl noLink | exact absurd rfl noStream | rfl

theorem eval_number (n : Nat) (x : Float) : eval (n + 1) (.number x) v = pure (.float x) := by
  cases v <;> first | exact absurd rfl noLink | exact absurd rfl noStream | rfl

theorem eval_length (n : Nat) :
    eval (n + 1) .length v = pure ((v.size?.map Value.ofCount).getD .null) := by
  cases v <;> first | exact absurd rfl noLink | exact absurd rfl noStream | rfl

theorem eval_binary (n : Nat) (op : Operator) (left right : Filter) :
    eval (n + 1) (.binary op left right) v = (do
      let a ← eval n left v
      let b ← eval n right v
      let a ← resolve n a
      let b ← resolve n b
      operate (.binary op left right) op a b) := by
  cases v <;> first | exact absurd rfl noLink | exact absurd rfl noStream | rfl

end AtHand

/-! ### Stepping -/

theorem reaches_mapStream (t : Transform) :
    Reaches (fun _ => mapStream feed t) h (.ok (.stream (h.addStream (.mapped feed t)).1))
      (h.addStream (.mapped feed t)).2 :=
  ⟨0, rfl⟩

theorem reaches_select_key {v : Value} (noLink : v.kind ≠ .link) (noArray : v.kind ≠ .array)
    (noStream : v.kind ≠ .stream) (name : String) :
    Reaches (fun n => select n (.key name) v) h (.ok ((v.member? name).getD .null)) h :=
  ⟨1, congrArg (outcome · h) (select_key noLink noStream noArray 0 name)⟩

theorem reaches_select_key_array {name : String} {vs ws : List Value}
    (turns : InTurn (fun v n => select n (.key name) v) vs h (.ok ws) h') :
    Reaches (fun n => select n (.key name) (.array vs)) h (.ok (.array ws)) h' := by
  apply Reaches.of_succ
  simp only [select]
  exact reaches_map.mpr ⟨_, (inTurn_iff (steady_select _)).mp turns, rfl⟩

theorem reaches_select_key_stream {name : String} :
    Reaches (fun n => select n (.key name) (.stream feed)) h
      (.ok (.stream (h.addStream (.mapped feed (.selector (.key name)))).1))
      (h.addStream (.mapped feed (.selector (.key name)))).2 :=
  Reaches.of_succ (reaches_mapStream _)

/-- The slice of everything is the stream itself. -/
theorem reaches_select_slice_stream_all {s : Slice} (all : s.all = true) :
    Reaches (fun n => select n (.slice s) (.stream feed)) h (.ok (.stream feed)) h := by
  refine ⟨1, ?_⟩
  simp only [select, sliceStream, if_pos all]
  rfl

theorem reaches_select_slice_stream {s : Slice} (part : ¬ s.all = true) :
    Reaches (fun n => select n (.slice s) (.stream feed)) h
      (.ok (.stream (h.addStream (.sliced feed s s.stop 0)).1))
      (h.addStream (.sliced feed s s.stop 0)).2 := by
  refine ⟨1, ?_⟩
  simp only [select, sliceStream, if_neg part]
  rfl

end Evaluation

end TreeQuery
