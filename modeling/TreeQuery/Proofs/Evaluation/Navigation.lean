import TreeQuery.Proofs.Evaluation.Delivery
import TreeQuery.Proofs.Evaluation.Settled
import TreeQuery.Query

/-!
# Lazy and eager navigation

Filters that take members and slices navigate a value: they make nothing new. On a stream they work
lazily, as towers of streams on top of it; on the array of its elements they work at once. As long
as no stream is reached from two places, it makes no difference which of the two happens.

## Main definitions

* `Filter.Navigates` — filters made of identities, keys and slices
* `Value.under`, `Value.sliced` — what keys and slices make of closed values
* `Evaluation.Takes` — what an evaluation takes from all values that come down to the same

## Main statements

* `Evaluation.exists_takes_eval` — what filters that navigate take depends on the content alone
* `Evaluation.lazy_eq_eager` — settling before or after such a filter comes to the same
-/

namespace TreeQuery

/-- Steps that take members and slices. -/
inductive Selector.Navigates : Selector → Prop
  | identity : Navigates .identity
  | key (name : String) : Navigates (.key name)
  | slice (s : Slice) : Navigates (.slice s)

/-- Filters that take members and slices. -/
inductive Filter.Navigates : Filter → Prop
  | select {s : Selector} (step : s.Navigates) : Navigates (.select s)
  | path {steps : List Selector} (each : ∀ s ∈ steps, s.Navigates) : Navigates (.path steps)
  | pipe {stages : List Filter} (each : ∀ f ∈ stages, Navigates f) : Navigates (.pipe stages)

namespace Value

mutual

/-- What a key takes from a closed value: the member of that name, from each item of an array. -/
def under (name : String) : Value → Value
  | array items => .array (allUnder name items)
  | v => (v.member? name).getD .null

/-- What a key takes from each of several closed values. -/
def allUnder (name : String) : List Value → List Value
  | [] => []
  | v :: vs => under name v :: allUnder name vs

end

theorem allUnder_eq_map (name : String) (vs : List Value) :
    allUnder name vs = vs.map (under name) := by
  induction vs with
  | nil => rfl
  | cons v vs ih => rw [allUnder, ih, List.map_cons]

theorem under_of_kind_ne {v : Value} (noArray : v.kind ≠ .array) (name : String) :
    v.under name = (v.member? name).getD .null := by
  cases v <;> first | exact absurd rfl noArray | rfl

/-- Arrays are made of their items; nothing else is taken apart. -/
theorem induction_items {motive : Value → Prop}
    (array : ∀ items, (∀ v ∈ items, motive v) → motive (.array items))
    (other : ∀ v, v.kind ≠ .array → motive v) (v : Value) : motive v := by
  induction v using induction_parts with
  | array items ih => exact array items ih
  | object ms => exact other _ nofun
  | record type vs => exact other _ nofun
  | stream id => exact other _ nofun
  | plain v partless =>
    refine other v fun isArray => ?_
    cases v <;> first | exact partless | cases isArray

/-- What a slice takes from a closed value. -/
def sliced (s : Slice) : Value → Value
  | array items => .array (s.apply items)
  | string text => .string (.ofList (s.apply text.toList))
  | bytes bs => .bytes (s.apply bs)
  | _ => .null

end Value

namespace Evaluation

open Host Run

variable {F G : Set StreamId} {h h' : Host} {v w : Value}

/-! ### Steps -/

/-- What a key takes from a value comes down to what it takes from the content. -/
theorem gives_select_key (name : String) (covers : h.Covers F) (holds : Holds F h v w) :
    Gives (fun n => select n (.key name) v) F h (w.under name) := by
  induction w using Value.induction_items generalizing F h v with
  | array ws each =>
    rw [Value.under, Value.allUnder_eq_map]
    rcases holds with ⟨vs, rfl, all⟩ | ⟨id, rfl, delivers⟩
    · obtain ⟨vs', h', G, turns, moves, all'⟩ := all.inTurn covers each
      exact ⟨.array vs', h', G, reaches_select_key_array turns, moves, .inl ⟨vs', rfl, all'⟩⟩
    · -- A new stream is put on top, which takes the place of the old one.
      let added := h.addStream (.mapped id (.selector (.key name)))
      have outside : added.1 ∉ F := fun mem => Nat.lt_irrefl _ (covers _ mem)
      have same : SameOn F h added.2 := (within_addStream _ h).sameOn (Set.empty_disjoint F) covers
      have delivers' := delivers_of_mapped outside (same.covers covers) (getElem?_addStream _ h)
        (delivers.of_sameOn same) fun w mem _ _ _ covers holds =>
          (each w mem covers holds).of_succ fun n => by rw [transform]
      exact ⟨.stream added.1, added.2, F ∪ {added.1}, reaches_select_key_stream,
        moves_addStream _ h F, .inr ⟨added.1, rfl, delivers'⟩⟩
  | other w noArray =>
    obtain ⟨noLink, noStream, same | ⟨-, array⟩⟩ := holds.kind_eq
    · rw [← same] at noLink noStream noArray
      rw [Value.under_of_kind_ne (same ▸ noArray)]
      exact gives_of_reaches (reaches_select_key noLink noArray noStream name)
        (holds.member noStream name)
    · exact absurd array noArray

/-- What a slice takes from a value comes down to what it takes from the content. -/
theorem gives_select_slice (s : Slice) (covers : h.Covers F) (holds : Holds F h v w) :
    Gives (fun n => select n (.slice s) v) F h (w.sliced s) := by
  cases w with
  | array ws =>
    rcases holds with ⟨vs, rfl, all⟩ | ⟨id, rfl, delivers⟩
    · exact gives_of_reaches ⟨1, rfl⟩ (.inl ⟨_, rfl, all.slice s⟩)
    · by_cases all : s.all = true
      · have whole : s.apply ws = ws := by simp [Slice.apply, Slice.bounds, all]
        exact gives_of_reaches (reaches_select_slice_stream_all all)
          (.inr ⟨id, rfl, whole.symm ▸ delivers⟩)
      · let added := h.addStream (.sliced id s s.stop 0)
        have outside : added.1 ∉ F := fun mem => Nat.lt_irrefl _ (covers _ mem)
        have same : SameOn F h added.2 :=
          (within_addStream _ h).sameOn (Set.empty_disjoint F) covers
        have delivers' := delivers_of_sliced (Bool.eq_false_iff.mpr all) outside
          (same.covers covers) (getElem?_addStream _ h) (delivers.of_sameOn same)
        exact ⟨.stream added.1, added.2, F ∪ {added.1}, reaches_select_slice_stream all,
          moves_addStream _ h F, .inr ⟨added.1, rfl, delivers'⟩⟩
  | object ms =>
    obtain ⟨vs, rfl, -⟩ := holds
    exact gives_of_reaches ⟨1, rfl⟩ rfl
  | record type ws =>
    obtain ⟨vs, rfl, -⟩ := holds
    exact gives_of_reaches ⟨1, rfl⟩ rfl
  | link id => exact holds.elim
  | stream id => exact holds.elim
  | _ =>
    obtain rfl : v = _ := holds
    exact gives_of_reaches ⟨1, rfl⟩ rfl

/-! ### Filters -/

/-- On all values that come down to `w`, the evaluation gives values that come down to `w'`. Arrays
make arrays. -/
structure Takes (r : Value → (allowance : Nat) → Evaluation Value) (w w' : Value) : Prop where
  gives : ∀ {F h v}, h.Covers F → Holds F h v w → Gives (r v) F h w'
  array : w.kind = .array → w'.kind = .array

theorem Takes.of_succ {r r' : Value → (allowance : Nat) → Evaluation Value} {w' : Value}
    (takes : Takes r w w') (same : ∀ v, v.kind ≠ .link → ∀ n, r' v (n + 1) = r v n) :
    Takes r' w w' :=
  ⟨fun covers holds => (takes.gives covers holds).of_succ (same _ holds.kind_ne_link), takes.array⟩

theorem exists_takes_select {s : Selector} (step : s.Navigates) (w : Value) :
    ∃ w', Takes (fun v n => select n s v) w w' := by
  cases step with
  | identity =>
    have stays : Takes (fun v _ => pure v) w w :=
      ⟨fun _ holds => gives_of_reaches (reaches_pure _ _) holds, id⟩
    exact ⟨w, stays.of_succ fun v noLink n => by
      cases v <;> first | exact absurd rfl noLink | rfl⟩
  | key name =>
    refine ⟨w.under name, gives_select_key name, fun array => ?_⟩
    cases w <;> first | rfl | cases array
  | slice s =>
    refine ⟨w.sliced s, gives_select_slice s, fun array => ?_⟩
    cases w <;> first | rfl | cases array

/-- If each of several evaluations takes something, they do so one after the other. -/
theorem exists_takes_foldlM {α : Type} {r : (allowance : Nat) → Value → α → Evaluation Value}
    (steady : ∀ v x, Steady fun n => r n v x) {xs : List α}
    (each : ∀ x ∈ xs, ∀ w, ∃ w', Takes (fun v n => r n v x) w w') (w : Value) :
    ∃ w', Takes (fun v n => xs.foldlM (r n) v) w w' := by
  induction xs generalizing w with
  | nil => exact ⟨w, fun _ holds => gives_of_reaches (reaches_pure _ _) holds, id⟩
  | cons x xs ih =>
    obtain ⟨w₁, first⟩ := each x (List.mem_cons_self ..) w
    obtain ⟨w₂, rest⟩ := ih (fun x mem => each x (List.mem_cons_of_mem _ mem)) w₁
    refine ⟨w₂, fun covers holds => ?_, fun array => rest.array (first.array array)⟩
    simp only [List.foldlM_cons]
    exact (first.gives covers holds).bind covers (steady _ x) (fun v => .foldlM steady xs v)
      rest.gives

/-- What a filter that navigates takes from a value depends on what the value comes down to, and on
nothing else. -/
theorem exists_takes_eval {f : Filter} (navigates : f.Navigates) (w : Value) :
    ∃ w', Takes (fun v n => eval n f v) w w' := by
  induction navigates generalizing w with
  | @select s step =>
    obtain ⟨w', takes⟩ := exists_takes_select step w
    exact ⟨w', takes.of_succ fun v noLink n => by
      cases v <;> first | exact absurd rfl noLink | rfl⟩
  | @path steps each =>
    obtain ⟨w', takes⟩ := exists_takes_foldlM (fun v s => steady_select s v)
      (fun s mem => exists_takes_select (each s mem)) w
    exact ⟨w', takes.of_succ fun v noLink n => by
      cases v <;> first | exact absurd rfl noLink | rfl⟩
  | @pipe stages each ih =>
    obtain ⟨w', takes⟩ := exists_takes_foldlM (fun v f => steady_eval f v) ih w
    exact ⟨w', takes.of_succ fun v noLink n => by
      cases v <;> first | exact absurd rfl noLink | rfl⟩

/-! ### Lazy and eager -/

variable {f : Filter} {w' : Value}

/-- The lazy way: the filter first, and then all streams that are left in its result. -/
theorem Takes.reaches_run (takes : Takes (fun v n => eval n f v) w w') (covers : h.Covers F)
    (holds : Holds F h v w) : ∃ h', Reaches (fun n => Query.run n f v) h (.ok w') h' := by
  obtain ⟨v', h₁, G, evaluates, moves, holds'⟩ := takes.gives covers holds
  obtain ⟨h₂, settles, -⟩ := holds'.reaches_settle (moves.covers covers)
  exact ⟨h₂, evaluates.bind settles (steady_eval f v) (steady_settle v')⟩

/-- On a closed value, the filter gives what it takes. -/
theorem Takes.reaches_eval (takes : Takes (fun v n => eval n f v) w w') (closed : w.isClosed = true)
    (h : Host) : Reaches (fun n => eval n f w) h (.ok w') h := by
  have covers : h.Covers ∅ := fun _ mem => mem.elim
  obtain ⟨v, h', G, reached, -, holds⟩ := takes.gives covers (holds_of_isClosed closed)
  -- The result is closed and the host as before, as always on closed values.
  have quiet := quiet_eval (h := h) (f := f) ⟨closed, Nat.le_refl _⟩ (Nat.lt_succ_self _)
  rcases quiet with ⟨v', ho, closed', -⟩ | ⟨e, ho, -⟩
  · obtain ⟨same, rfl⟩ := reached.unique ⟨_, ho⟩ (steady_eval f w)
    cases same
    rw [← holds.eq_of_isClosed closed']
    exact reached
  · cases (reached.unique ⟨_, ho⟩ (steady_eval f w)).1

/-- The eager way: all streams of the value first, and then the filter. -/
theorem Takes.reaches_settle_eval (takes : Takes (fun v n => eval n f v) w w') (covers : h.Covers F)
    (holds : Holds F h v w) :
    ∃ h', Reaches (fun n => do eval n f (← settle n v)) h (.ok w') h' := by
  obtain ⟨h₁, settles, -⟩ := holds.reaches_settle covers
  exact ⟨h₁,
    settles.bind (takes.reaches_eval holds.isClosed h₁) (steady_settle v) (steady_eval f w)⟩

/-- Settling the result of a filter that navigates comes to the same as applying it to the settled
value, and neither fails. In particular, a stream of items gives the same array as the array of
those items. -/
theorem lazy_eq_eager {f : Filter} (navigates : f.Navigates) :
    (∀ {F h v w}, h.Covers F → Holds F h v w →
      ∃ w', (∃ h', Reaches (fun n => Query.run n f v) h (.ok w') h') ∧
        ∃ h', Reaches (fun n => do eval n f (← settle n v)) h (.ok w') h') ∧
    ∀ {F h id s vs ws}, h.Covers F → id ∉ F → h.streams[id.index]? = some ⟨.source s, false⟩ →
      s.supply = .listed (vs.map .element) → HoldsAll F h vs ws →
        ∃ ws', (∃ h', Reaches (fun n => Query.run n f (.stream id)) h (.ok (.array ws')) h') ∧
          ∃ h', Reaches (fun n => Query.run n f (.array vs)) h (.ok (.array ws')) h' := by
  constructor
  · intro F h v w covers holds
    obtain ⟨w', takes⟩ := exists_takes_eval navigates w
    exact ⟨w', takes.reaches_run covers holds, takes.reaches_settle_eval covers holds⟩
  · intro F h id s vs ws covers outside found listed all
    obtain ⟨w', takes⟩ := exists_takes_eval navigates (.array ws)
    -- The stream and the array come down to the same.
    have delivers := delivers_of_listed outside covers found listed all
    have covers' : h.Covers (F ∪ {id}) := covers_union_iff.mpr ⟨covers, covers_singleton found⟩
    have lazy := takes.reaches_run covers' (.inr ⟨id, rfl, delivers⟩)
    have eager := takes.reaches_run covers (.inl ⟨vs, rfl, all⟩)
    cases w' with
    | array ws' => exact ⟨ws', lazy, eager⟩
    | _ => cases takes.array rfl

/-- Two objects come from a stream, and the first one has another stream in it. -/
def shelf : Host :=
  let inner : Source := ⟨"inner", true, .listed [.element (.integer 5), .element (.integer 6)], 0⟩
  let outer : Source := ⟨"outer", true,
    .listed [.element (.object [("a", .stream ⟨0⟩)]), .element (.object [("a", .null)])], 0⟩
  { Host.empty with streams := #[⟨.source inner, false⟩, ⟨.source outer, false⟩] }

theorem holdsAll_shelf :
    HoldsAll {⟨0⟩} shelf [.object [("a", .stream ⟨0⟩)], .object [("a", .null)]]
      [.object [("a", .array [.integer 5, .integer 6])], .object [("a", .null)]] := by
  have numbers : HoldsAll ∅ shelf [.integer 5, .integer 6] [.integer 5, .integer 6] :=
    holdsAll_of_allClosed rfl
  have inner : Delivers (∅ ∪ {⟨0⟩}) shelf ⟨0⟩ [.integer 5, .integer 6] :=
    delivers_of_listed (Set.notMem_empty _) (fun _ mem => mem.elim) rfl rfl numbers
  rw [Set.empty_union] at inner
  have member : Holds {⟨0⟩} shelf (.object [("a", .stream ⟨0⟩)])
      (.object [("a", .array [.integer 5, .integer 6])]) :=
    ⟨_, rfl, _, _, {⟨0⟩}, ∅, rfl, by simp, disjoint_bot_right, .inr ⟨_, rfl, inner⟩, rfl⟩
  exact ⟨_, _, {⟨0⟩}, ∅, rfl, by simp, disjoint_bot_right, member, holdsAll_of_allClosed rfl⟩

theorem lazy_eq_eager_shelf :
    let f : Filter := .pipe [.path [.key "a"], .select (.slice (.between 0 (some 1)))]
    let vs : List Value := [.object [("a", .stream ⟨0⟩)], .object [("a", .null)]]
    f.Navigates ∧ (∃ w', (∃ h', Reaches (fun n => Query.run n f (.array vs)) shelf (.ok w') h') ∧
      ∃ h', Reaches (fun n => do eval n f (← settle n (.array vs))) shelf (.ok w') h') ∧
    ∃ ws', (∃ h', Reaches (fun n => Query.run n f (.stream ⟨1⟩)) shelf (.ok (.array ws')) h') ∧
      ∃ h', Reaches (fun n => Query.run n f (.array vs)) shelf (.ok (.array ws')) h' := by
  intro f vs
  have navigates : f.Navigates := by
    refine .pipe fun g mem => ?_
    simp only [List.mem_cons, List.not_mem_nil, or_false] at mem
    rcases mem with rfl | rfl
    · exact .path fun s mem => List.mem_singleton.mp mem ▸ .key "a"
    · exact .select (.slice _)
  have covers : shelf.Covers {⟨0⟩} := covers_singleton rfl
  have outside : (⟨1⟩ : StreamId) ∉ ({⟨0⟩} : Set StreamId) := by simp
  have holds : Holds {⟨0⟩} shelf (.array vs) (.array _) := .inl ⟨vs, rfl, holdsAll_shelf⟩
  exact ⟨navigates, (lazy_eq_eager navigates).1 covers holds,
    (lazy_eq_eager navigates).2 covers outside rfl rfl holdsAll_shelf⟩

end Evaluation

end TreeQuery
