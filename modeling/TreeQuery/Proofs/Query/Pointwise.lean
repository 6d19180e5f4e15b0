import TreeQuery.Proofs.Evaluation.Confined
import TreeQuery.Proofs.Evaluation.Stages
import TreeQuery.Proofs.Query.Sequence

/-!
# Streams element by element

A filter whose stages make something new of every element comes, on a stream, to what it comes to on
the elements: one element is taken, the whole filter is run on it and its result is settled, and
only then the next one is taken. That is so whatever the elements hold, links and streams too, as
nothing that an element leads to can know of the layers that stand on top of the stream.

## Main definitions

* `Evaluation.OneByOne` — taking elements and running something on each
* `Evaluation.Tower` — layers on top of a stream, beside a region

## Main statements

* `Evaluation.reaches_pull_tower` — a pull through all layers
* `Evaluation.oneByOne_nextThen_iff` — work on an element as it is taken, or when it has been taken
* `Query.broadcast_pointwise` — a filter on a stream is the filter on its elements
-/

namespace TreeQuery

namespace Evaluation

open Host Run

variable {R : Region} {h h' : Host} {id feed top : StreamId} {f : Filter} {fs : List Filter}
  {v : Value}

/-! ### One element after the other -/

/-- Elements are taken until there are no more. Each is worked on before the next one is taken, and
the first failure is the last thing that happens. -/
inductive OneByOne (next : (allowance : Nat) → Evaluation (Option Value))
    (work : Value → (allowance : Nat) → Evaluation Value) :
    Host → Except EvalError (List Value) → Host → Prop
  | finish {h h' : Host} (ends : Reaches next h (.ok none) h') : OneByOne next work h (.ok []) h'
  /-- There is a failure in the place of an element. -/
  | refusal {h h' : Host} {e : EvalError} (fails : Reaches next h (.error e) h') :
      OneByOne next work h (.error e) h'
  /-- An element is taken, and the work on it fails. -/
  | failure {h h₁ h' : Host} {v : Value} {e : EvalError} (takes : Reaches next h (.ok (some v)) h₁)
      (fails : Reaches (work v) h₁ (.error e) h') : OneByOne next work h (.error e) h'
  /-- An element is taken and worked on, and then the others. -/
  | value {h h₁ h₂ h' : Host} {v w : Value} {result : Except EvalError (List Value)}
      (takes : Reaches next h (.ok (some v)) h₁) (works : Reaches (work v) h₁ (.ok w) h₂)
      (rest : OneByOne next work h₂ result h') : OneByOne next work h (result.map (w :: ·)) h'

/-- Draining a stream is settling its elements one by one. -/
theorem reaches_drain_iff {result : Except EvalError (List Value)} :
    Reaches (fun n => drain n id) h result h' ↔
      OneByOne (fun n => pull n id) (fun v n => settle n v) h result h' := by
  constructor
  · rintro ⟨n, ho⟩
    -- By induction on the allowance: all that a round is made of has been reached with one less.
    induction n generalizing h result with
    | zero => cases ho
    | succ n ih =>
      simp only [drain] at ho
      rw [outcome_bind] at ho
      split at ho
      · cases ho
      · next taken mid pulls =>
        cases taken with
        | none =>
          cases ho
          exact .finish ⟨n, pulls⟩
        | some v =>
          rw [outcome_bind] at ho
          split at ho
          · cases ho
          · next w mid' settles =>
            rw [outcome_map, Option.map_eq_some_iff] at ho
            obtain ⟨⟨inner, last⟩, drains, same⟩ := ho
            cases same
            exact .value ⟨n, pulls⟩ ⟨n, settles⟩ (ih drains)
          · next e mid' fails =>
            cases ho
            exact .failure ⟨n, pulls⟩ ⟨n, fails⟩
      · next e mid fails =>
        cases ho
        exact .refusal ⟨n, fails⟩
  · intro turns
    -- The allowances of a round differ, and steadiness brings them together.
    have steady (w : Value) : Steady fun n => (do return w :: (← drain n id) : Evaluation _) :=
      (steady_drain id).bind fun _ => steady_const _
    induction turns with
    | finish ends => exact reaches_drain_none ends
    | refusal fails =>
      obtain ⟨n, ho⟩ := fails
      exact ⟨n + 1, by simp only [drain, outcome_bind, ho]⟩
    | failure takes fails =>
      apply Reaches.of_succ
      simp only [drain]
      refine takes.bind ?_ (steady_pull id) ((steady_settle _).bind steady)
      exact (reaches_bind (steady_settle _) steady).mpr (.inl ⟨_, fails, rfl⟩)
    | value takes works _ ih =>
      apply Reaches.of_succ
      simp only [drain]
      refine takes.bind ?_ (steady_pull id) ((steady_settle _).bind steady)
      exact works.bind (reaches_map.mpr ⟨_, ih, rfl⟩) (steady_settle _) (steady _)

theorem reaches_settle_stream_iff {result : Except EvalError Value} :
    Reaches (fun n => settle n (.stream id)) h result h' ↔
      ∃ results, OneByOne (fun n => pull n id) (fun v n => settle n v) h results h' ∧
        result = results.map .array := by
  rw [← reaches_succ (steady_settle _)]
  simp only [settle, reaches_map, reaches_drain_iff]

/-- What matters is what the work on each element comes to. -/
theorem OneByOne.imp {next : Nat → Evaluation (Option Value)}
    {work work' : Value → Nat → Evaluation Value}
    (same : ∀ {v h result h'}, Reaches (work v) h result h' → Reaches (work' v) h result h')
    {results : Except EvalError (List Value)} (turns : OneByOne next work h results h') :
    OneByOne next work' h results h' := by
  induction turns with
  | finish ends => exact .finish ends
  | refusal fails => exact .refusal fails
  | failure takes fails => exact .failure takes (same fails)
  | value takes works _ ih => exact .value takes (same works) ih

/-! ### Layers -/

/-- A stream on top of a region only hands on what it makes of the stream below: nothing there can
tell that it is busy meanwhile. -/
theorem reaches_pull_mapped {t : Transform} (sealed : h.Sealed R) (fed : feed ∈ R.streams)
    (within : t.In R) (outside : top ∉ R.streams)
    (found : h.streams[top.index]? = some ⟨.mapped feed t, false⟩)
    {result : Except EvalError (Option Value)} :
    Reaches (fun n => pull n top) h result h' ↔
      Reaches (fun n => advance n top (.mapped feed t)) h result h' := by
  -- The stream is busy while its cursor moves, which nothing in the region can see.
  have same (n : Nat) : (pull (n + 2) top).outcome h =
      (advance (n + 1) top (.mapped feed t)).outcome h := by
    have confined := (confines_all R n).advance_mapped fed within top
    have blind : (advance (n + 1) top (.mapped feed t)).outcome (h.setBusy top true) = _ :=
      confined.blind h top _ sealed outside
    rw [outcome_pull found, blind]
    cases ho : (advance (n + 1) top (.mapped feed t)).outcome h with
    | none => rfl
    | some out =>
      obtain ⟨result, g⟩ := out
      have beside := (confined.leaves h result g sealed ho).2.1
      have restored := setBusy_setBusy ((beside.streams top outside).trans found)
      exact congrArg (fun g => some (result, g)) restored
  have steadyPull : Steady fun n => pull (n + 1) top := fun _ _ le =>
    pull_extendedBy (Nat.succ_le_succ le) top
  rw [← reaches_succ (steady_pull top), ← reaches_succ steadyPull,
    ← reaches_succ (steady_advance top _)]
  simp only [Reaches, same]

/-- Take an element and work on it. -/
def nextThen (next : (allowance : Nat) → Evaluation (Option Value))
    (work : Value → (allowance : Nat) → Evaluation Value) (allowance : Nat) :
    Evaluation (Option Value) := do
  match ← next allowance with
  | none => return none
  | some v => return some (← work v allowance)

/-- Working on an element twice is doing so in one go. -/
theorem nextThen_nextThen (next : Nat → Evaluation (Option Value))
    (work work' : Value → Nat → Evaluation Value) :
    nextThen (nextThen next work) work' =
      nextThen next fun v n => work v n >>= fun w => work' w n := by
  funext n
  simp only [nextThen, bind_assoc]
  congr 1
  funext taken
  cases taken with
  | none => rfl
  | some v => simp only [bind_assoc, pure_bind]

theorem steady_nextThen {next : Nat → Evaluation (Option Value)}
    {work : Value → Nat → Evaluation Value} (steady : Steady next)
    (steady' : ∀ v, Steady (work v)) : Steady (nextThen next work) := by
  refine steady.bind fun taken => ?_
  cases taken with
  | none => exact steady_const _
  | some v => exact (steady' v).bind fun _ => steady_const _

theorem reaches_nextThen_iff {next : Nat → Evaluation (Option Value)}
    {work : Value → Nat → Evaluation Value} (steady : Steady next) (steady' : ∀ v, Steady (work v))
    {result : Except EvalError (Option Value)} :
    Reaches (nextThen next work) h result h' ↔
      (∃ e, Reaches next h (.error e) h' ∧ result = .error e) ∨
        (Reaches next h (.ok none) h' ∧ result = .ok none) ∨
        ∃ v mid made, Reaches next h (.ok (some v)) mid ∧ Reaches (work v) mid made h' ∧
          result = made.map some := by
  have each : ∀ taken : Option Value, Steady fun n => (match taken with
      | none => pure none
      | some v => do return some (← work v n) : Evaluation (Option Value)) := by
    rintro (_ | v)
    · exact steady_const _
    · exact (steady' v).bind fun _ => steady_const _
  refine Iff.trans (reaches_bind steady each) ?_
  constructor
  · rintro (⟨e, fails, rfl⟩ | ⟨_ | v, mid, takes, works⟩)
    · exact .inl ⟨e, fails, rfl⟩
    · obtain ⟨_, ⟨⟩⟩ := works
      exact .inr (.inl ⟨takes, rfl⟩)
    · obtain ⟨made, works', rfl⟩ := reaches_map.mp works
      exact .inr (.inr ⟨v, mid, made, takes, works', rfl⟩)
  · rintro (⟨e, fails, rfl⟩ | ⟨ends, rfl⟩ | ⟨v, mid, made, takes, works, rfl⟩)
    · exact .inl ⟨e, fails, rfl⟩
    · exact .inr ⟨none, h', ends, reaches_pure _ _⟩
    · exact .inr ⟨some v, mid, takes, reaches_map.mpr ⟨made, works, rfl⟩⟩

/-- It makes no difference whether the first part of the work belongs to taking the element. -/
theorem oneByOne_nextThen_iff {next : Nat → Evaluation (Option Value)}
    {work work' : Value → Nat → Evaluation Value} (steady : Steady next)
    (steadyWork : ∀ v, Steady (work v)) (steadyWork' : ∀ v, Steady (work' v))
    {results : Except EvalError (List Value)} :
    OneByOne (nextThen next work) work' h results h' ↔
      OneByOne next (fun v n => work v n >>= fun w => work' w n) h results h' := by
  -- Both sides go through the same rounds. A failure of the first work refuses the pull on the left
  -- and fails the work on the right.
  have pulled {h h' : Host} {taken : Except EvalError (Option Value)} :
      Reaches (nextThen next work) h taken h' ↔ _ :=
    reaches_nextThen_iff steady steadyWork
  have worked {h h' : Host} {v : Value} {made : Except EvalError Value} :
      Reaches (fun n => work v n >>= fun w => work' w n) h made h' ↔ _ :=
    reaches_bind (steadyWork v) steadyWork'
  constructor
  · intro turns
    induction turns with
    | finish ends =>
      rcases pulled.mp ends with ⟨e, -, ⟨⟩⟩ | ⟨ends, -⟩ | ⟨v, mid, _ | w, -, -, ⟨⟩⟩
      exact .finish ends
    | refusal fails =>
      rcases pulled.mp fails with ⟨e, fails, ⟨⟩⟩ | ⟨-, ⟨⟩⟩ | ⟨v, mid, e | w, takes, fails, ⟨⟩⟩
      · exact .refusal fails
      · exact .failure takes (worked.mpr (.inl ⟨_, fails, rfl⟩))
    | failure takes fails =>
      rcases pulled.mp takes with ⟨e, -, ⟨⟩⟩ | ⟨-, ⟨⟩⟩ | ⟨v, mid, _ | w, takes, first, ⟨⟩⟩
      exact .failure takes (worked.mpr (.inr ⟨_, _, first, fails⟩))
    | value takes second _ ih =>
      rcases pulled.mp takes with ⟨e, -, ⟨⟩⟩ | ⟨-, ⟨⟩⟩ | ⟨v, mid, _ | w, takes, first, ⟨⟩⟩
      exact .value takes (worked.mpr (.inr ⟨_, _, first, second⟩)) ih
  · intro turns
    induction turns with
    | finish ends => exact .finish (pulled.mpr (.inr (.inl ⟨ends, rfl⟩)))
    | refusal fails => exact .refusal (pulled.mpr (.inl ⟨_, fails, rfl⟩))
    | failure takes fails =>
      rcases worked.mp fails with ⟨e, fails, ⟨⟩⟩ | ⟨w, mid, first, fails⟩
      · exact .refusal (pulled.mpr (.inr (.inr ⟨_, _, _, takes, fails, rfl⟩)))
      · exact .failure (pulled.mpr (.inr (.inr ⟨_, _, _, takes, first, rfl⟩))) fails
    | value takes works _ ih =>
      rcases worked.mp works with ⟨e, -, ⟨⟩⟩ | ⟨w, mid, first, second⟩
      exact .value (pulled.mpr (.inr (.inr ⟨_, _, _, takes, first, rfl⟩))) second ih

/-- Two ways to take elements come to the same, as long as they reach the same from the hosts that
the work on the elements leads to. -/
theorem OneByOne.congr_next {I : Host → Prop} {next next' : Nat → Evaluation (Option Value)}
    {work : Value → Nat → Evaluation Value}
    (same : ∀ h, I h → ∀ result h', Reaches next h result h' → Reaches next' h result h')
    (keeps : ∀ h v mid w h', I h → Reaches next h (.ok (some v)) mid →
      Reaches (work v) mid (.ok w) h' → I h')
    {results : Except EvalError (List Value)} (start : I h)
    (turns : OneByOne next work h results h') : OneByOne next' work h results h' := by
  induction turns with
  | finish ends => exact .finish (same _ start _ _ ends)
  | refusal fails => exact .refusal (same _ start _ _ fails)
  | failure takes fails => exact .failure (same _ start _ _ takes) fails
  | value takes works _ ih =>
    exact .value (same _ start _ _ takes) works (ih (keeps _ _ _ _ _ start takes works))

/-- Layers of stages on top of a stream of the region. Each is fed by the one below and stands
beside the region that this one belongs to. -/
inductive Tower (h : Host) : Region → StreamId → List Filter → StreamId → Prop
  | base {R : Region} {id : StreamId} (inside : id ∈ R.streams) : Tower h R id [] id
  | layer {R : Region} {feed next top : StreamId} {f : Filter} {fs : List Filter}
      (fed : feed ∈ R.streams) (outside : next ∉ R.streams)
      (found : h.streams[next.index]? = some ⟨.mapped feed f.transform, false⟩)
      (rest : Tower h (R.insert next) next fs top) : Tower h R feed (f :: fs) top

theorem transform_in (f : Filter) : f.transform.In R := by
  cases f <;> trivial

/-- With a layer on top of it, the region is still sealed. -/
theorem sealed_insert {c : Cursor} (sealed : h.Sealed R) (within : c.In R)
    (found : h.streams[top.index]? = some ⟨c, false⟩) : h.Sealed (R.insert top) := by
  have sub := R.within_insert top
  refine ⟨?_, ?_, ?_, ?_, ?_⟩
  · exact fun id mem r found => (sealed.links id mem r found).mono sub
  · rintro id (mem | rfl) cell found'
    · exact (sealed.streams id mem cell found').mono sub
    · cases found.symm.trans found'
      exact within.mono sub
  · exact fun name mem v found => (sealed.names name mem v found).mono sub
  · exact sealed.newLinks
  · exact fun id new => .inl (sealed.newStreams id new)

/-- Nothing that happens within the region moves the layers on top of it. -/
theorem Tower.of_beside (tower : Tower h R id fs top) (beside : Beside R h h') :
    Tower h' R id fs top := by
  induction tower with
  | base inside => exact .base inside
  | layer fed outside found _ ih =>
    exact .layer fed outside ((beside.streams _ outside).trans found)
      (ih (beside.mono (Region.within_insert ..)))

/-- A pull through all layers takes an element from below and sends it through all stages. -/
theorem reaches_pull_tower (tower : Tower h R id fs top) (sealed : h.Sealed R)
    {result : Except EvalError (Option Value)} :
    Reaches (fun n => pull n top) h result h' ↔
      Reaches (nextThen (fun n => pull n id) (through fs)) h result h' := by
  induction tower generalizing result h' with
  | base inside =>
    rw [reaches_nextThen_iff (steady_pull _) (steady_through [])]
    constructor
    · intro pulls
      rcases result with e | _ | v
      · exact .inl ⟨e, pulls, rfl⟩
      · exact .inr (.inl ⟨pulls, rfl⟩)
      · exact .inr (.inr ⟨v, h', .ok v, pulls, reaches_pure v h', rfl⟩)
    · rintro (⟨e, pulls, rfl⟩ | ⟨pulls, rfl⟩ | ⟨v, mid, made, pulls, ⟨_, ⟨⟩⟩, rfl⟩)
      · exact pulls
      · exact pulls
      · exact pulls
  | @layer R feed next top f fs fed outside found _ ih =>
    have within : f.transform.In R := transform_in f
    -- The transform of a layer is the stage itself, so that the pull of the layer can be split.
    have lower {result : Except EvalError (Option Value)} {h' : Host} :
        Reaches (fun n => pull n next) h result h' ↔
          Reaches (nextThen (fun n => pull n feed) fun v n => eval n f v) h result h' := by
      rw [reaches_pull_mapped sealed fed within outside found,
        ← reaches_succ (steady_advance next _)]
      have same : (fun n => advance (n + 1) next (.mapped feed f.transform)) =
          nextThen (fun n => pull n feed) fun v n => transform n f.transform v := rfl
      rw [same, reaches_nextThen_iff (steady_pull feed) (steady_transform _),
        reaches_nextThen_iff (steady_pull feed) (steady_eval f)]
      simp only [reaches_transform]
    have steady : Steady (nextThen (fun n => pull n feed) fun v n => eval n f v) :=
      steady_nextThen (steady_pull feed) (steady_eval f)
    rw [ih (sealed_insert (c := .mapped feed f.transform) sealed ⟨fed, within⟩ found),
      reaches_nextThen_iff (steady_pull _) (steady_through fs)]
    simp only [lower]
    rw [← reaches_nextThen_iff steady (steady_through fs), nextThen_nextThen]
    simp only [← through_cons]

theorem Tower.inside (tower : Tower h R id fs top) : id ∈ R.streams := by
  cases tower with
  | base inside => exact inside
  | layer fed => exact fed

theorem Confined.of_reaches {α : Type} {P : α → Prop} {r : Nat → Evaluation α}
    (confined : ∀ n, Confined R (r n) P) (sealed : h.Sealed R) {result : Except EvalError α}
    (reached : Reaches r h result h') :
    h'.Sealed R ∧ Beside R h h' ∧ ∀ a, result = .ok a → P a := by
  obtain ⟨n, ho⟩ := reached
  exact (confined n).leaves h result h' sealed ho

/-- Send an element through stages and settle what comes of it. -/
def workOff (fs : List Filter) (v : Value) (allowance : Nat) : Evaluation Value := do
  settle allowance (← through fs v allowance)

theorem confined_through (fs : List Filter) (inside : v.In R) (n : Nat) :
    Confined R (through fs v n) (Value.In R) :=
  confined_foldlM (fun v f => (confines_all R n).eval f v) inside

theorem reaches_workOff {result : Except EvalError Value} :
    Reaches (workOff fs v) h result h' ↔
      (∃ e, Reaches (through fs v) h (.error e) h' ∧ result = .error e) ∨
        ∃ w mid, Reaches (through fs v) h (.ok w) mid ∧
          Reaches (fun n => settle n w) mid result h' :=
  reaches_bind (steady_through fs v) steady_settle

theorem confined_pull_through (fs : List Filter) (inside : id ∈ R.streams) (n : Nat) :
    Confined R (nextThen (fun n => pull n id) (through fs) n) fun taken =>
      ∀ v, taken = some v → v.In R := by
  refine ((confines_all R n).pull id inside).bind fun taken within => ?_
  cases taken with
  | none => exact confined_pure (by rintro v ⟨⟩)
  | some v =>
    refine (confined_through fs (within v rfl) n).bind fun w inside' => confined_pure ?_
    rintro _ ⟨⟩
    exact inside'

/-- The elements on top of a tower, settled one by one, are the elements below it, sent through all
stages and settled one by one. -/
theorem oneByOne_tower_iff (tower : Tower h R id fs top) (sealed : h.Sealed R)
    {results : Except EvalError (List Value)} :
    OneByOne (fun n => pull n top) (fun v n => settle n v) h results h' ↔
      OneByOne (fun n => pull n id) (workOff fs) h results h' := by
  -- Taking an element and settling it leaves the tower as it is, and the region sealed.
  have keeps (h : Host) (v : Value) (mid : Host) (w : Value) (h' : Host)
      (start : Tower h R id fs top ∧ h.Sealed R)
      (takes : Reaches (nextThen (fun n => pull n id) (through fs)) h (.ok (some v)) mid)
      (settles : Reaches (fun n => settle n v) mid (.ok w) h') :
      Tower h' R id fs top ∧ h'.Sealed R := by
    obtain ⟨sealed', beside, within⟩ :=
      Confined.of_reaches (confined_pull_through fs tower.inside) start.2 takes
    obtain ⟨sealed'', beside', -⟩ :=
      Confined.of_reaches (fun n => (confines_all R n).settle v (within _ rfl v rfl)) sealed' settles
    exact ⟨start.1.of_beside (beside.trans beside'), sealed''⟩
  refine Iff.trans ?_ (oneByOne_nextThen_iff (steady_pull id) (steady_through fs) steady_settle)
  constructor
  · refine OneByOne.congr_next (I := fun h => Tower h R id fs top ∧ h.Sealed R)
      (fun h start _ _ => (reaches_pull_tower start.1 start.2).mp) ?_ ⟨tower, sealed⟩
    exact fun h v mid w h' start takes =>
      keeps h v mid w h' start ((reaches_pull_tower start.1 start.2).mp takes)
  · exact OneByOne.congr_next (I := fun h => Tower h R id fs top ∧ h.Sealed R)
      (fun h start _ _ => (reaches_pull_tower start.1 start.2).mpr) keeps ⟨tower, sealed⟩

/-- A pile leaves streams that are there already as they are. -/
theorem getElem?_pile (below : id.index < h.streams.size) (feed : StreamId) (fs : List Filter) :
    (h.pile feed fs).2.streams[id.index]? = h.streams[id.index]? := by
  obtain ⟨cells, same⟩ := h.exists_pile_eq feed fs
  rw [same]
  exact Array.getElem?_append_left below

theorem size_le_pile (h : Host) (id : StreamId) (fs : List Filter) :
    h.streams.size ≤ (h.pile id fs).2.streams.size := by
  obtain ⟨cells, same⟩ := h.exists_pile_eq id fs
  rw [same, Array.size_append]
  exact Nat.le_add_right ..

/-- The layers of stages that broadcast are a tower beside everything that was there before, and
everything that comes after. -/
theorem tower_pile (broadcasts : ∀ f ∈ fs, f.Broadcasts) {S : Region} (inside : feed ∈ S.streams)
    (others : ∀ id ∈ S.streams,
      id.index < h.streams.size ∨ (h.pile feed fs).2.streams.size ≤ id.index) :
    Tower (h.pile feed fs).2 S feed fs (h.pile feed fs).1 := by
  induction fs generalizing h feed S with
  | nil => exact .base inside
  | cons f fs ih =>
    rw [List.forall_mem_cons] at broadcasts
    obtain ⟨c, added⟩ : ∃ c, c = Cursor.mapped feed f.transform := ⟨_, rfl⟩
    have pile : h.pile feed (f :: fs) = (h.addStream c).2.pile (h.addStream c).1 fs := by
      simp only [Host.pile, broadcasts.1.layer?_eq, added]
    have grown : (h.addStream c).2.streams.size = h.streams.size + 1 := by simp [addStream]
    have top : (h.addStream c).1.index = h.streams.size := rfl
    have above := size_le_pile (h.addStream c).2 (h.addStream c).1 fs
    rw [pile] at others ⊢
    refine .layer inside (fun mem => ?_) ?_ (ih broadcasts.2 (.inr rfl) ?_)
    · have := others _ mem
      omega
    · rw [getElem?_pile (by omega), getElem?_addStream, added]
    · rintro id (mem | rfl)
      · have := others id mem
        omega
      · exact .inl (by omega)

/-- Without an empty pipe, an element that is sent through the stages of a filter is one that the
filter is run on. -/
theorem reaches_workOff_stages (nonempty : f ≠ .pipe []) {result : Except EvalError Value} :
    Reaches (workOff f.stages v) h result h' ↔ Reaches (fun n => Query.run n f v) h result h' := by
  have stages : f.stages ≠ [] := by
    cases f with
    | pipe stages => exact fun none => nonempty (congrArg Filter.pipe none)
    | _ => nofun
  rw [reaches_workOff]
  simp only [reaches_through_stages stages, Query.run,
    reaches_bind (steady_eval f v) steady_settle]

/-- A region that leads nowhere else is sealed by what is added after the layers. -/
theorem sealed_pile (encloses : h.Encloses R) (feed : StreamId) (fs : List Filter) :
    (h.pile feed fs).2.Sealed (R.extend (h.pile feed fs).2) := by
  refine Encloses.sealed ?_
  obtain ⟨cells, same⟩ := h.exists_pile_eq feed fs
  refine ⟨?_, fun id mem => ?_, ?_⟩
  · rw [same]
    exact encloses.links
  · rw [getElem?_pile (encloses.lt_size mem)]
    exact encloses.streams id mem
  · rw [same]
    exact encloses.names

end Evaluation

open Evaluation Run

/-- A filter is applied to a stream of a region that leads nowhere else; its stages each make
something new of every element. Applying it takes no element and adds streams to the host, nothing
else. Settling the result takes the elements one by one: the filter is run on an element, on the
host as it is then, and its result is settled before the next element is taken. The first failure,
of the stream or of the filter, is the last thing that happens. A pipe without stages gives the
elements as they are, settled. -/
theorem Query.broadcast_pointwise {R : Region} {h : Host} {id : StreamId} {f : Filter}
    (encloses : h.Encloses R) (inside : id ∈ R.streams)
    (broadcasts : ∀ g ∈ f.stages, g.Broadcasts) :
    ∃ top cells, let h₀ : Host := { h with streams := h.streams ++ cells }
      (∀ result h', Reaches (fun n => eval n f (.stream id)) h result h' ↔
        result = .ok (.stream top) ∧ h' = h₀) ∧
      (f ≠ .pipe [] → ∀ result h', Reaches (fun n => settle n (.stream top)) h₀ result h' ↔
        ∃ results, OneByOne (fun n => pull n id) (fun v n => run n f v) h₀ results h' ∧
          result = results.map .array) ∧
      (f = .pipe [] → ∀ result h', Reaches (fun n => settle n (.stream top)) h₀ result h' ↔
        ∃ results, OneByOne (fun n => pull n id) (fun v n => settle n v) h₀ results h' ∧
          result = results.map .array) := by
  obtain ⟨cells, same⟩ := h.exists_pile_eq id f.stages
  refine ⟨(h.pile id f.stages).1, cells, ?_⟩
  dsimp only
  rw [← same]
  refine ⟨fun result h' => reaches_eval_stages fun g mem => (broadcasts g mem).isLazy, ?_, ?_⟩
  · intro nonempty result h'
    have sealed := sealed_pile encloses id f.stages
    -- The stages stand one on top of the other, each on what the one before it makes.
    have tower : Tower (h.pile id f.stages).2 (R.extend (h.pile id f.stages).2) id f.stages
        (h.pile id f.stages).1 := by
      refine tower_pile broadcasts (.inl inside) ?_
      rintro id' (mem | new)
      · exact .inl (encloses.lt_size mem)
      · exact .inr new
    have alike {results : Except EvalError (List Value)} :
        OneByOne (fun n => pull n id) (workOff f.stages) (h.pile id f.stages).2 results h' ↔
          OneByOne (fun n => pull n id) (fun v n => run n f v) (h.pile id f.stages).2 results h' :=
      ⟨.imp (reaches_workOff_stages nonempty).mp, .imp (reaches_workOff_stages nonempty).mpr⟩
    simp only [reaches_settle_stream_iff, oneByOne_tower_iff tower sealed, alike]
  · rintro rfl result h'
    exact reaches_settle_stream_iff

/-- A host with a stream that has one element, a link to a number. -/
def linkStream : Host :=
  { Host.empty with
    links := #[⟨"five", .give (.integer 5), []⟩]
    streams := #[⟨.source ⟨"s", true, .listed [.element (.link ⟨0⟩)], 0⟩, false⟩] }

/-- All of it. -/
def linkStreamRegion : Region := ⟨{⟨0⟩}, {⟨0⟩}, ∅⟩

/-- Two stages on a stream with a link: the link is followed when its element is taken. -/
theorem Query.broadcast_pointwise_link :
    linkStream.Encloses linkStreamRegion ∧ ⟨0⟩ ∈ linkStreamRegion.streams ∧
      (∀ g ∈ (Filter.pipe [.group [.select .identity], .length]).stages, g.Broadcasts) ∧
      ∃ h', Reaches (fun n => run n (.pipe [.group [.select .identity], .length]) (.stream ⟨0⟩))
        linkStream (.ok (.array [.integer 1])) h' ∧
        h'.log = #[.pull ⟨0⟩ 0 none, .resolution ⟨0⟩ none, .exhausted ⟨0⟩] := by
  have encloses : linkStream.Encloses linkStreamRegion := by
    refine ⟨?_, ?_, fun _ mem => mem.elim⟩
    · rintro _ rfl
      have five : (Value.integer 5).In linkStreamRegion := by simp [Value.In]
      exact ⟨_, rfl, five, by rintro step ⟨⟩⟩
    · rintro _ rfl
      refine ⟨_, rfl, fun item mem => ?_⟩
      obtain rfl := List.mem_singleton.mp mem
      simp [Item.In, Value.In, linkStreamRegion]
  have broadcasts : ∀ g ∈ (Filter.pipe [.group [.select .identity], .length]).stages,
      g.Broadcasts := by
    simp [Filter.stages, Filter.Broadcasts]
  obtain ⟨top, cells, evals, settles, -⟩ := broadcast_pointwise encloses rfl broadcasts
  refine ⟨encloses, rfl, broadcasts, ?_⟩
  -- Evaluation tells what was added to the host.
  let layers : Array StreamCell := #[⟨.mapped ⟨0⟩ (.filter (.group [.select .identity])), false⟩,
    ⟨.mapped ⟨1⟩ (.filter .length), false⟩]
  let layered : Host := { linkStream with streams := linkStream.streams ++ layers }
  obtain ⟨first, second⟩ := (evals (.ok (.stream ⟨2⟩)) layered).mp ⟨3, rfl⟩
  cases first
  rw [← second] at evals settles
  have takes : Reaches (fun n => pull n ⟨0⟩) layered (.ok (some (.link ⟨0⟩))) _ := ⟨2, rfl⟩
  have turns : OneByOne (fun n => pull n ⟨0⟩)
      (fun v n => run n (.pipe [.group [.select .identity], .length]) v) layered
      (.ok [.integer 1]) _ := .value takes ⟨8, rfl⟩ (.finish ⟨2, rfl⟩)
  have settled := (settles (by rintro ⟨⟩) _ _).mpr ⟨_, turns, rfl⟩
  have applied := (evals _ _).mpr ⟨rfl, rfl⟩
  exact ⟨_, applied.bind settled (steady_eval _ _) (steady_settle _), rfl⟩

/-- A pipe without stages does not work on the elements: a link that it would follow is left. -/
theorem Query.empty_pipe_not_pointwise :
    (∀ g ∈ (Filter.pipe []).stages, g.Broadcasts) ∧
      ∃ h' g', Reaches (fun n => run n (.pipe []) (.stream ⟨0⟩)) linkStream
          (.ok (.array [.link ⟨0⟩])) h' ∧
        OneByOne (fun n => pull n ⟨0⟩) (fun v n => run n (.pipe []) v) linkStream
          (.ok [.integer 5]) g' ∧
        Value.array [.link ⟨0⟩] ≠ .array [.integer 5] ∧ h'.log ≠ g'.log := by
  refine ⟨by rintro g ⟨⟩, _, _, ⟨8, rfl⟩, .value ⟨8, rfl⟩ ⟨8, rfl⟩ (.finish ⟨8, rfl⟩),
    by rintro ⟨⟩, ?_⟩
  intro same
  exact absurd (congrArg Array.size same) (by decide)

end TreeQuery
