import Mathlib.Data.ENat.Basic
import TreeQuery.Proofs.Evaluation.Settled
import TreeQuery.Proofs.Query.Pointwise

/-!
# How much of a stream is taken

A pipe of lazy stages takes no more of a stream than its slices call for. Going backwards from the
last stage, a slice that gives `k` elements takes those before its start as well, but never more
than its stop says; every other stage takes as many as it gives.

The layers that the stages put on top of the stream are looked at one by one: each has a bound on
what it may still take from the one below, and a pull through it pays for what it takes by lowering
that bound.

## Main definitions

* `Filter.demand` — how many elements a stage takes for a number of elements that it gives
* `Evaluation.Draws` — layers on top of a source, with what they may still take from it
* `Evaluation.Rounds` — elements that are taken and settled one after the other

## Main statements

* `Evaluation.Draws.pull` — a pull pays for what it takes
* `Query.bounded_pulling` — the bound for a pipe, and the number itself for a single slice
-/

namespace TreeQuery

namespace Slice

variable {s : Slice} {budget : Option Nat} {position : Nat}

/-- How many more elements a slice takes to give `k` elements: those that it still has to skip, and
those that it gives, unless its budget ends before. -/
noncomputable def draw (s : Slice) (budget : Option Nat) (position : Nat) (k : ℕ∞) : ℕ∞ :=
  min (budget.elim ⊤ Nat.cast) ((s.start - position : Nat) + k)

theorem draw_mono (s : Slice) (budget : Option Nat) (position : Nat) :
    Monotone (s.draw budget position) := by
  intro j k le
  exact min_le_min_left _ (by gcongr)

theorem lower_budget (unspent : budget ≠ some 0) :
    ((budget.map (· - 1)).elim ⊤ Nat.cast : ℕ∞) + 1 ≤ budget.elim ⊤ Nat.cast := by
  cases budget with
  | none => exact le_top
  | some n =>
    obtain ⟨n, rfl⟩ : ∃ m, n = m + 1 := Nat.exists_eq_succ_of_ne_zero fun zero =>
      unspent (congrArg some zero)
    simp

theorem min_add_one_le {a b c d : ℕ∞} (left : a + 1 ≤ c) (right : b + 1 ≤ d) :
    min a b + 1 ≤ min c d :=
  le_min ((add_le_add_left (min_le_left a b) 1).trans left)
    ((add_le_add_left (min_le_right a b) 1).trans right)

/-- A pull that gives an element, or fails, or finds the end, is paid for. -/
theorem draw_give (unspent : budget ≠ some 0) {position' : Nat} (le : position ≤ position')
    (k : ℕ∞) :
    s.draw (budget.map (· - 1)) position' k + 1 ≤ s.draw budget position (k + 1) := by
  refine min_add_one_le (lower_budget unspent) ?_
  rw [add_assoc]
  gcongr

/-- A pull whose element is skipped is paid for too. -/
theorem draw_skip (unspent : budget ≠ some 0) (skipped : position < s.start) (k : ℕ∞) :
    s.draw (budget.map (· - 1)) (position + 1) k + 1 ≤ s.draw budget position k := by
  refine min_add_one_le (lower_budget unspent) ?_
  have fewer : s.start - position = s.start - (position + 1) + 1 := by omega
  rw [fewer, add_right_comm, Nat.cast_add, Nat.cast_one]

end Slice

namespace Evaluation

open Host Run

variable {R : Region} {src id feed : StreamId} {stack : List StreamId} {c : Cursor}
  {need : ℕ∞ → ℕ∞} {h h' : Host} {n : Nat}

/-! ### Layers on top of a source -/

/-- The cursor belongs to a stream that draws on a source through the streams of the stack, the
uppermost first. To give `k` elements, it takes at most `need k` from the source. Whatever is done
to the elements stays within a region that source and stack stand beside. -/
inductive Draws (R : Region) (src : StreamId) (h : Host) :
    List StreamId → StreamId → Cursor → (ℕ∞ → ℕ∞) → Prop
  | source {s : Source} (gives : s.supply.In R) : Draws R src h [] src (.source s) fun k => k
  | mapped {stack : List StreamId} {feed id : StreamId} {c : Cursor} {need : ℕ∞ → ℕ∞}
      {t : Transform} (below : Draws R src h stack feed c need)
      (found : h.streams[feed.index]? = some ⟨c, false⟩) (outside : feed ∉ R.streams)
      (apart : feed ∉ stack) (within : t.In R) :
      Draws R src h (feed :: stack) id (.mapped feed t) need
  | sliced {stack : List StreamId} {feed id : StreamId} {c : Cursor} {need : ℕ∞ → ℕ∞}
      {s : Slice} {budget : Option Nat} {position : Nat} (below : Draws R src h stack feed c need)
      (found : h.streams[feed.index]? = some ⟨c, false⟩) (outside : feed ∉ R.streams)
      (apart : feed ∉ stack) (bounded : s.Bounded budget position) :
      Draws R src h (feed :: stack) id (.sliced feed s budget position) fun k =>
        need (s.draw budget position k)

/-- Only the streams of the stack matter. -/
theorem Draws.of_same (draws : Draws R src h stack id c need)
    (same : ∀ m ∈ stack, h'.streams[m.index]? = h.streams[m.index]?) :
    Draws R src h' stack id c need := by
  induction draws with
  | source gives => exact .source gives
  | mapped _ found outside apart within ih =>
    rw [List.forall_mem_cons] at same
    exact .mapped (ih same.2) (same.1.trans found) outside apart within
  | sliced _ found outside apart bounded ih =>
    rw [List.forall_mem_cons] at same
    exact .sliced (ih same.2) (same.1.trans found) outside apart bounded

theorem Draws.mono (draws : Draws R src h stack id c need) : Monotone need := by
  induction draws with
  | source => exact monotone_id
  | mapped _ _ _ _ _ ih => exact ih
  | sliced _ _ _ _ _ ih => exact ih.comp (Slice.draw_mono ..)

theorem Draws.stack_outside (draws : Draws R src h stack id c need) :
    ∀ m ∈ stack, m ∉ R.streams := by
  induction draws with
  | source => exact nofun
  | mapped _ _ outside _ _ ih => exact List.forall_mem_cons.mpr ⟨outside, ih⟩
  | sliced _ _ outside _ _ ih => exact List.forall_mem_cons.mpr ⟨outside, ih⟩

/-- What is left when a stream that draws on a source was asked for an element: the region is still
sealed, only the region, the stack and the stream have changed, and what was taken from the source
is paid for. -/
structure Drawn (R : Region) (src : StreamId) (stack : List StreamId) (id : StreamId) (busy : Bool)
    (need : ℕ∞ → ℕ∞) (h : Host) (result : Except EvalError (Option Value)) (h' : Host) : Prop where
  sealed : h'.Sealed R
  others : ∀ m ∉ R.streams, m ∉ stack → m ≠ id → h'.streams[m.index]? = h.streams[m.index]?
  within : ∀ v, result = .ok (some v) → v.In R
  rests : ∃ c need', h'.streams[id.index]? = some ⟨c, busy⟩ ∧ Draws R src h' stack id c need' ∧
    ∀ k, (h'.pulls src : ℕ∞) + need' k ≤ h.pulls src + need (k + 1)

/-- Asking pays if moving the cursor does. -/
theorem drawn_pull (outside : id ∉ R.streams) (apart : id ∉ stack)
    (draws : Draws R src h stack id c need) (sealed : h.Sealed R)
    (found : h.streams[id.index]? = some ⟨c, false⟩)
    (advance : ∀ {n result g},
      Draws R src (h.setBusy id true) stack id c need → (h.setBusy id true).Sealed R →
      (h.setBusy id true).streams[id.index]? = some ⟨c, true⟩ →
      (advance n id c).outcome (h.setBusy id true) = some (result, g) →
      Drawn R src stack id true need (h.setBusy id true) result g)
    {result : Except EvalError (Option Value)} (ho : (pull n id).outcome h = some (result, h')) :
    Drawn R src stack id false need h result h' := by
  have beside {f : StreamCell → StreamCell} (g : Host) :
      ∀ m ∈ stack, (g.modifyStream id f).streams[m.index]? = g.streams[m.index]? :=
    fun m mem => getElem?_modifyStream_of_ne fun same => apart (same ▸ mem)
  cases n with
  | zero => cases ho
  | succ n =>
    rw [outcome_pull found, Option.map_eq_some_iff] at ho
    obtain ⟨⟨_, g⟩, moved, same⟩ := ho
    cases same
    have drawn := advance (draws.of_same (beside h))
      (sealed.modifyStream fun mem => absurd mem outside) (getElem?_modifyStream found) moved
    obtain ⟨c', need', found', draws', paid⟩ := drawn.rests
    refine ⟨drawn.sealed.modifyStream fun mem => absurd mem outside, ?_, drawn.within, c', need',
      getElem?_modifyStream found', draws'.of_same (beside g), paid⟩
    intro m outside' apart' other
    exact (getElem?_modifyStream_of_ne other).trans
      ((drawn.others m outside' apart' other).trans (getElem?_modifyStream_of_ne other))

/-- The stream that is taken from by its name belongs to the region, and so does what it gives. -/
theorem confined_pullNamed (n : Nat) {name : String} (inside : name ∈ R.names) :
    Confined R (do
      match ← streamNamed? name with
      | some other => pull n other
      | none => return none) fun taken => ∀ v, taken = some v → v.In R := by
  refine (confined_streamNamed? inside).bind fun found named => ?_
  cases found with
  | none => exact confined_pure (by rintro v ⟨⟩)
  | some other => exact (confines_all R n).pull other (named other rfl)

/-- A source gives an element of the region, and logs that it was asked. -/
theorem drawn_source {s : Source} (outside : src ∉ R.streams) (gives : s.supply.In R)
    (sealed : h.Sealed R) (found : h.streams[src.index]? = some ⟨.source s, true⟩)
    {result : Except EvalError (Option Value)}
    (ho : (advance n src (.source s)).outcome h = some (result, h')) :
    Drawn R src [] src true (fun k => k) h result h' := by
  have asked {event : Event} (same : event.stream? = some src) (g : Host) (k : ℕ∞) :
      (((g.record event).pulls src : ℕ) : ℕ∞) + k ≤ g.pulls src + (k + 1) := by
    rw [pulls_record_self same, Nat.cast_add, Nat.cast_one, add_right_comm, add_assoc]
  cases n with
  | zero => cases ho
  | succ n =>
    rw [advance, takeItem] at ho
    cases taken : s.take? with
    | none =>
      simp only [taken] at ho
      cases ho
      refine ⟨⟨sealed.links, sealed.streams, sealed.names, sealed.newLinks, sealed.newStreams⟩,
        fun _ _ _ _ => rfl, by rintro v ⟨⟩, .source s, _, found, .source gives, asked rfl h⟩
    | some out =>
      obtain ⟨item, s'⟩ := out
      obtain ⟨first, rest⟩ := gives.take? taken
      obtain ⟨g, at_g⟩ : ∃ g, g = (h.setCursor src (.source s')).record
        (.pull src s.position item.failure?) := ⟨_, rfl⟩
      have sealed_g : g.Sealed R := by
        have moved : (h.setCursor src (.source s')).Sealed R :=
          sealed.modifyStream fun mem => absurd mem outside
        rw [at_g]
        exact ⟨moved.links, moved.streams, moved.names, moved.newLinks, moved.newStreams⟩
      have found_g : g.streams[src.index]? = some ⟨.source s', true⟩ := by
        rw [at_g]
        exact getElem?_modifyStream found
      -- What else happens, happens within the region.
      have after {g' : Host} (sealed' : g'.Sealed R) (beside : Beside R g g')
          (within : ∀ v, result = .ok (some v) → v.In R) :
          Drawn R src [] src true (fun k => k) h result g' := by
        refine ⟨sealed', fun m outside' _ other => ?_, within, .source s', _,
          (beside.streams src outside).trans found_g, .source rest, fun k => ?_⟩
        · rw [beside.streams m outside', at_g]
          exact getElem?_modifyStream_of_ne other
        · rw [beside.pulls src outside, at_g]
          exact asked rfl _ k
      simp only [taken, bind_assoc, outcome_bind, outcome_change, pure_bind, ← at_g] at ho
      cases item with
      | element v =>
        cases ho
        exact after sealed_g (.refl R _) fun w same => by cases same; exact first
      | failure e =>
        cases ho
        exact after sealed_g (.refl R _) (by rintro v ⟨⟩)
      | pull name =>
        obtain ⟨sealed', beside, within⟩ :=
          (confined_pullNamed n first).leaves g result h' sealed_g ho
        exact after sealed' beside fun v same => within _ same v rfl

/-- A stream whose elements are transformed takes as many elements as it gives. -/
theorem drawn_mapped {t : Transform} (outside : id ∉ R.streams) (apart : id ∉ feed :: stack)
    (source : src ∉ R.streams) (fed : feed ∉ R.streams) (apartFeed : feed ∉ stack)
    (within : t.In R) (found : h.streams[id.index]? = some ⟨.mapped feed t, true⟩)
    (pulled : ∀ {n result g}, (pull n feed).outcome h = some (result, g) →
      Drawn R src stack feed false need h result g)
    {result : Except EvalError (Option Value)}
    (ho : (advance n id (.mapped feed t)).outcome h = some (result, h')) :
    Drawn R src (feed :: stack) id true need h result h' := by
  rw [List.mem_cons, not_or] at apart
  -- Whatever becomes of the element, it happens within the region.
  have after {taken : Except EvalError (Option Value)} {g g' : Host}
      (drawn : Drawn R src stack feed false need h taken g) (sealed : g'.Sealed R)
      (beside : Beside R g g') (inside : ∀ v, result = .ok (some v) → v.In R) :
      Drawn R src (feed :: stack) id true need h result g' := by
    obtain ⟨c, need', found', draws, paid⟩ := drawn.rests
    have draws' := draws.of_same fun m mem => beside.streams m (draws.stack_outside m mem)
    refine ⟨sealed, fun m outside' apart' other => ?_, inside, .mapped feed t, need', ?_,
      .mapped draws' ((beside.streams feed fed).trans found') fed apartFeed within, fun k => ?_⟩
    · rw [List.mem_cons, not_or] at apart'
      exact (beside.streams m outside').trans (drawn.others m outside' apart'.2 apart'.1)
    · rw [beside.streams id outside, drawn.others id outside apart.2 apart.1, found]
    · rw [beside.pulls src source]
      exact paid k
  cases n with
  | zero => cases ho
  | succ n =>
    rw [advance, outcome_bind] at ho
    split at ho
    · cases ho
    · next taken g pulls =>
      have drawn := pulled pulls
      cases taken with
      | none =>
        cases ho
        exact after drawn drawn.sealed (.refl R _) (by rintro v ⟨⟩)
      | some v =>
        have confined := (confines_all R n).transform t v within (drawn.within v rfl)
        have confined' : Confined R (do return some (← transform n t v))
            fun taken => ∀ v, taken = some v → v.In R :=
          confined.bind fun w inside => confined_pure fun w' same => Option.some.inj same ▸ inside
        obtain ⟨sealed, beside, inside⟩ := confined'.leaves g result h' drawn.sealed ho
        exact after drawn sealed beside fun v same => inside _ same v rfl
    · next e g fails =>
      cases ho
      have drawn := pulled fails
      exact after drawn drawn.sealed (.refl R _) (by rintro v ⟨⟩)

/-- What a pull from the stream below pays for is paid for by the slice too, if the slice may take
one element more than it may take afterwards. Before and after the pull nothing but the cursor of
the slice was moved. -/
theorem Drawn.through_slice {s : Slice} {budget budget' : Option Nat} {position position' : Nat}
    {h₁ g g' : Host} {taken result : Except EvalError (Option Value)}
    (apart : id ∉ feed :: stack) (fed : feed ∉ R.streams) (apartFeed : feed ∉ stack)
    (mono : Monotone need) (before : ∀ m, m ≠ id → h₁.streams[m.index]? = h.streams[m.index]?)
    (logged : h₁.pulls src = h.pulls src) (drawn : Drawn R src stack feed false need h₁ taken g)
    (after : ∀ m, m ≠ id → g'.streams[m.index]? = g.streams[m.index]?)
    (logged' : g'.pulls src = g.pulls src) (sealed : g'.Sealed R)
    (within : ∀ v, result = .ok (some v) → v.In R)
    (cell : g'.streams[id.index]? = some ⟨.sliced feed s budget' position', true⟩)
    (bounded : s.Bounded budget' position')
    (pays : ∀ k, s.draw budget' position' k + 1 ≤ s.draw budget position (k + 1)) :
    Drawn R src (feed :: stack) id true (fun k => need (s.draw budget position k)) h result g' := by
  rw [List.mem_cons, not_or] at apart
  obtain ⟨c', need', found', below', paid⟩ := drawn.rests
  have below := below'.of_same fun m mem => after m fun same => apart.2 (same ▸ mem)
  refine ⟨sealed, fun m outside' apart' ne => ?_, within, _, _, cell,
    .sliced below ((after feed (Ne.symm apart.1)).trans found') fed apartFeed bounded, fun k => ?_⟩
  · rw [List.mem_cons, not_or] at apart'
    exact (after m ne).trans
      ((drawn.others m outside' apart'.2 apart'.1).trans (before m ne))
  · calc (g'.pulls src : ℕ∞) + need' (s.draw budget' position' k)
      _ ≤ h₁.pulls src + need (s.draw budget' position' k + 1) := logged' ▸ paid _
      _ ≤ h.pulls src + need (s.draw budget position (k + 1)) := by
        rw [logged]
        have more := mono (pays k)
        gcongr

/-- A slice takes elements until one belongs to it or its budget is used up. -/
theorem drawn_sliced {s : Slice} {budget : Option Nat} {position : Nat} (outside : id ∉ R.streams)
    (apart : id ∉ feed :: stack) (fed : feed ∉ R.streams) (apartFeed : feed ∉ stack)
    (below : Draws R src h stack feed c need) (sealed : h.Sealed R)
    (foundFeed : h.streams[feed.index]? = some ⟨c, false⟩)
    (bounded : s.Bounded budget position)
    (found : h.streams[id.index]? = some ⟨.sliced feed s budget position, true⟩)
    (pulled : ∀ {n c need h result g}, Draws R src h stack feed c need → h.Sealed R →
      h.streams[feed.index]? = some ⟨c, false⟩ → (pull n feed).outcome h = some (result, g) →
      Drawn R src stack feed false need h result g)
    {result : Except EvalError (Option Value)}
    (ho : (advance n id (.sliced feed s budget position)).outcome h = some (result, h')) :
    Drawn R src (feed :: stack) id true (fun k => need (s.draw budget position k)) h result h' := by
  have ⟨other, apartStack⟩ : id ≠ feed ∧ id ∉ stack := by simpa using apart
  have sealed_modify {f : StreamCell → StreamCell} {g : Host} (sealed : g.Sealed R) :
      (g.modifyStream id f).Sealed R := sealed.modifyStream fun mem => absurd mem outside
  have moves {f : StreamCell → StreamCell} (g : Host) (m : StreamId) (ne : m ≠ id) :
      (g.modifyStream id f).streams[m.index]? = g.streams[m.index]? :=
    getElem?_modifyStream_of_ne ne
  -- By induction on the allowance, since a slice that skips an element goes on by itself.
  induction n generalizing h c need budget position with
  | zero => cases ho
  | succ n ih =>
    by_cases spent : budget = some 0
    · subst spent
      cases ho
      refine ⟨sealed, fun _ _ _ _ => rfl, by rintro v ⟨⟩, _, _, found,
        .sliced below foundFeed fed apartFeed bounded, fun k => ?_⟩
      have more := below.mono (s.draw_mono (some 0) position (le_add_right (le_refl k) : k ≤ k + 1))
      gcongr
    -- A pull is counted before it is made.
    obtain ⟨h₁, at_h₁⟩ : ∃ h₁, h₁ = h.setCursor id
      (.sliced feed s (budget.map (· - 1)) position) := ⟨_, rfl⟩
    have counted : h₁.streams[id.index]? =
        some ⟨.sliced feed s (budget.map (· - 1)) position, true⟩ :=
      at_h₁ ▸ getElem?_modifyStream found
    have elsewhere : ∀ m, m ≠ id → h₁.streams[m.index]? = h.streams[m.index]? :=
      fun m ne => at_h₁ ▸ moves h m ne
    have logged : h₁.pulls src = h.pulls src := at_h₁ ▸ rfl
    rw [outcome_advance_sliced spent, ← at_h₁] at ho
    obtain ⟨bounded₀, bounded₁⟩ := bounded.next spent
    cases pulls : (Evaluation.pull n feed).outcome h₁ with
    | none =>
      rw [pulls] at ho
      cases ho
    | some out =>
      obtain ⟨taken, g⟩ := out
      have drawn : Drawn R src stack feed false need h₁ taken g :=
        pulled (below.of_same fun m mem => elsewhere m fun same => apartStack (same ▸ mem))
          (at_h₁ ▸ sealed_modify sealed) ((elsewhere feed other.symm).trans foundFeed) pulls
      have resting := (drawn.others id outside apartStack other).trans counted
      have cell := getElem?_modifyStream (f := fun cell => { cell with
        cursor := .sliced feed s (budget.map (· - 1)) (position + 1) }) resting
      -- Where the slice stops after this pull, it has paid for it.
      have gives {result : Except EvalError (Option Value)}
          (within : ∀ v, result = .ok (some v) → v.In R) :
          Drawn R src (feed :: stack) id true (fun k => need (s.draw budget position k)) h result
            (g.setCursor id (.sliced feed s (budget.map (· - 1)) (position + 1))) :=
        drawn.through_slice apart fed apartFeed below.mono elsewhere logged (moves g) rfl
          (sealed_modify drawn.sealed) within cell bounded₁
          (Slice.draw_give spent (Nat.le_succ position))
      rw [pulls] at ho
      rcases taken with e | _ | v
      · cases ho
        exact gives (by rintro v ⟨⟩)
      · cases ho
        exact drawn.through_slice apart fed apartFeed below.mono elsewhere logged
          (fun _ _ => rfl) rfl drawn.sealed (by rintro v ⟨⟩) resting bounded₀
          (Slice.draw_give spent (Nat.le_refl position))
      · by_cases contains : s.contains position = true
        · simp only [if_pos contains] at ho
          cases ho
          exact gives drawn.within
        · simp only [if_neg contains] at ho
          -- What it skips is paid for, too, and it goes on with one element less to skip.
          have skipped := Slice.draw_skip spent (bounded.skips spent contains)
          obtain ⟨c', need', found', below', paid⟩ := drawn.rests
          have rest := ih (below'.of_same fun m mem => moves g m fun same => apartStack (same ▸ mem))
            (sealed_modify drawn.sealed) ((moves g feed other.symm).trans found') bounded₁ cell ho
          obtain ⟨c'', need'', cell', draws, paid'⟩ := rest.rests
          refine ⟨rest.sealed, fun m outside' apart' ne => ?_, rest.within, c'', need'', cell', draws,
            fun k => ?_⟩
          · have apart₁ := apart'
            rw [List.mem_cons, not_or] at apart₁
            calc h'.streams[m.index]?
              _ = (g.setCursor id _).streams[m.index]? := rest.others m outside' apart' ne
              _ = g.streams[m.index]? := moves g m ne
              _ = h₁.streams[m.index]? := drawn.others m outside' apart₁.2 apart₁.1
              _ = h.streams[m.index]? := elsewhere m ne
          · calc (h'.pulls src : ℕ∞) + need'' k
              _ ≤ g.pulls src + need' (s.draw (budget.map (· - 1)) (position + 1) (k + 1)) :=
                paid' k
              _ ≤ h₁.pulls src +
                  need (s.draw (budget.map (· - 1)) (position + 1) (k + 1) + 1) := paid _
              _ ≤ h.pulls src + need (s.draw budget position (k + 1)) := by
                rw [logged]
                have more := below.mono (skipped (k + 1))
                gcongr

/-- A pull from a stream that draws on a source keeps to the bound: what it takes from the source
is paid for by what it may take later. -/
theorem Draws.pull (source : src ∉ R.streams) {result : Except EvalError (Option Value)}
    (draws : Draws R src h stack id c need) (outside : id ∉ R.streams) (apart : id ∉ stack)
    (sealed : h.Sealed R) (found : h.streams[id.index]? = some ⟨c, false⟩)
    (ho : (Evaluation.pull n id).outcome h = some (result, h')) :
    Drawn R src stack id false need h result h' := by
  induction stack generalizing n id c need h result h' with
  | nil =>
    cases draws with
    | source gives =>
      exact drawn_pull source apart (.source gives) sealed found
        (fun _ sealed found => drawn_source source gives sealed found) ho
  | cons feed stack ih =>
    refine drawn_pull outside apart draws sealed found (fun draws sealed found moved => ?_) ho
    cases draws with
    | mapped below foundFeed fed apartFeed within =>
      exact drawn_mapped outside apart source fed apartFeed within found
        (ih below fed apartFeed sealed foundFeed) moved
    | sliced below foundFeed fed apartFeed bounded =>
      exact drawn_sliced outside apart fed apartFeed below sealed foundFeed bounded found
        (fun below sealed found => ih below fed apartFeed sealed found) moved

/-! ### Settling -/

/-- So many elements are taken and worked on, one after the other. There may be more. -/
inductive Rounds (next : (allowance : Nat) → Evaluation (Option Value))
    (work : Value → (allowance : Nat) → Evaluation Value) : Nat → Host → Host → Prop
  | zero (h : Host) : Rounds next work 0 h h
  | succ {k : Nat} {h h₁ h₂ h' : Host} {v w : Value} (takes : Reaches next h (.ok (some v)) h₁)
      (works : Reaches (work v) h₁ (.ok w) h₂) (rest : Rounds next work k h₂ h') :
      Rounds next work (k + 1) h h'

/-- A stream that is not busy and draws on a source. -/
structure Rests (R : Region) (src : StreamId) (stack : List StreamId) (id : StreamId)
    (need : ℕ∞ → ℕ∞) (h : Host) : Prop where
  source : src ∉ R.streams
  outside : id ∉ R.streams
  apart : id ∉ stack
  sealed : h.Sealed R
  draws : ∃ c, h.streams[id.index]? = some ⟨c, false⟩ ∧ Draws R src h stack id c need

theorem Rests.pull (rests : Rests R src stack id need h)
    {result : Except EvalError (Option Value)}
    (reached : Reaches (fun n => Evaluation.pull n id) h result h') :
    (∀ v, result = .ok (some v) → v.In R) ∧ ∃ need', Rests R src stack id need' h' ∧
      ∀ k, (h'.pulls src : ℕ∞) + need' k ≤ h.pulls src + need (k + 1) := by
  obtain ⟨n, ho⟩ := reached
  obtain ⟨c, found, draws⟩ := rests.draws
  have drawn := draws.pull rests.source rests.outside rests.apart rests.sealed found ho
  obtain ⟨c', need', found', draws', paid⟩ := drawn.rests
  exact ⟨drawn.within, need',
    ⟨rests.source, rests.outside, rests.apart, drawn.sealed, c', found', draws'⟩, paid⟩

/-- What happens in the region takes nothing from the source. -/
theorem Rests.of_beside (rests : Rests R src stack id need h) (sealed : h'.Sealed R)
    (beside : Beside R h h') : Rests R src stack id need h' := by
  obtain ⟨c, found, draws⟩ := rests.draws
  refine ⟨rests.source, rests.outside, rests.apart, sealed, c,
    (beside.streams id rests.outside).trans found, draws.of_same fun m mem => ?_⟩
  exact beside.streams m (draws.stack_outside m mem)

/-- An element that is taken and settled is paid for. -/
theorem Rests.round (rests : Rests R src stack id need h) {v : Value}
    {result : Except EvalError Value} {h₁ : Host}
    (takes : Reaches (fun n => Evaluation.pull n id) h (.ok (some v)) h₁)
    (settles : Reaches (fun n => settle n v) h₁ result h') :
    ∃ need', Rests R src stack id need' h' ∧
      ∀ k, (h'.pulls src : ℕ∞) + need' k ≤ h.pulls src + need (k + 1) := by
  obtain ⟨within, need', rests', paid⟩ := rests.pull takes
  obtain ⟨sealed, beside, -⟩ := Confined.of_reaches
    (fun n => (confines_all R n).settle v (within v rfl)) rests'.sealed settles
  exact ⟨need', rests'.of_beside sealed beside, beside.pulls src rests.source ▸ paid⟩

/-- Taking some elements takes no more from the source than they call for. -/
theorem Rests.rounds (rests : Rests R src stack id need h) {k : Nat}
    (rounds : Rounds (fun n => Evaluation.pull n id) (fun v n => settle n v) k h h') :
    ∃ need', Rests R src stack id need' h' ∧
      ∀ j, (h'.pulls src : ℕ∞) + need' j ≤ h.pulls src + need (k + j) := by
  induction rounds generalizing need with
  | zero => exact ⟨need, rests, fun j => by simp⟩
  | @succ k _ _ _ _ _ _ takes works _ ih =>
    obtain ⟨need₁, rests₁, paid₁⟩ := rests.round takes works
    obtain ⟨need₂, rests₂, paid₂⟩ := ih rests₁
    refine ⟨need₂, rests₂, fun j => (paid₂ j).trans ((paid₁ (k + j)).trans_eq ?_)⟩
    rw [Nat.cast_add, Nat.cast_one, add_right_comm]

/-- Settling takes no more from the source than all elements call for. -/
theorem Rests.oneByOne (rests : Rests R src stack id need h)
    {results : Except EvalError (List Value)}
    (turns : OneByOne (fun n => Evaluation.pull n id) (fun v n => settle n v) h results h') :
    (h'.pulls src : ℕ∞) ≤ h.pulls src + need ⊤ := by
  have paid_off {g g' : Host} {need need' : ℕ∞ → ℕ∞}
      (paid : ∀ k, (g'.pulls src : ℕ∞) + need' k ≤ g.pulls src + need (k + 1)) :
      (g'.pulls src : ℕ∞) + need' ⊤ ≤ g.pulls src + need ⊤ := paid ⊤
  induction turns generalizing need with
  | finish ends =>
    obtain ⟨-, need', -, paid⟩ := rests.pull ends
    exact le_self_add.trans (paid_off paid)
  | refusal fails =>
    obtain ⟨-, need', -, paid⟩ := rests.pull fails
    exact le_self_add.trans (paid_off paid)
  | failure takes fails =>
    obtain ⟨need', -, paid⟩ := rests.round takes fails
    exact le_self_add.trans (paid_off paid)
  | value takes works _ ih =>
    obtain ⟨need', rests', paid⟩ := rests.round takes works
    exact (ih rests').trans (paid_off paid)

/-! ### Piles -/

/-- A source that is not busy and has these elements left. -/
def Lists (src : StreamId) (vs : List Value) (h : Host) : Prop :=
  ∃ s : Source, h.streams[src.index]? = some ⟨.source s, false⟩ ∧
    s.supply = .listed (vs.map .element)

/-- A slice of a source that has these elements left. There are at most so many pulls to come. -/
structure Cut (src : StreamId) (s : Slice) (top : StreamId) (busy : Bool) (left : Nat)
    (vs : List Value) (h : Host) : Prop where
  apart : top ≠ src
  cell : ∃ position, h.streams[top.index]? = some ⟨.sliced src s (some left) position, busy⟩
  lists : Lists src vs h

/-- The pulls that have been made and those that will have been when the slice has ended. -/
def pullsInAll (src : StreamId) (left : Nat) (vs : List Value) (h : Host) : Nat :=
  h.pulls src + min left (vs.length + 1)

/-- A slice of a source was asked for an element: either it gives one and goes on with those that
come later, the total of pulls being the same as before, or that total is reached. -/
def Asked (src : StreamId) (s : Slice) (top : StreamId) (busy : Bool) (left : Nat) (vs : List Value)
    (h : Host) : Option Value → Host → Prop
  | none, h' => h'.pulls src = pullsInAll src left vs h
  | some v, h' => ∃ left' vs', v :: vs' <:+ vs ∧ Cut src s top busy left' vs' h' ∧
      pullsInAll src left' vs' h' = pullsInAll src left vs h

variable {s : Slice} {top : StreamId} {busy : Bool} {left position : Nat} {vs : List Value}

theorem Lists.of_same (lists : Lists src vs h)
    (same : h'.streams[src.index]? = h.streams[src.index]?) : Lists src vs h' := by
  obtain ⟨s, found, listed⟩ := lists
  exact ⟨s, same.trans found, listed⟩

/-- A source is pulled once for every element, and once more at its end. -/
theorem Lists.reaches_pull (lists : Lists src vs h) :
    ∃ h', Reaches (fun n => pull n src) h (.ok vs.head?) h' ∧ Lists src vs.tail h' ∧
      h'.pulls src = h.pulls src + 1 ∧
      ∀ id ≠ src, h'.streams[id.index]? = h.streams[id.index]? := by
  obtain ⟨s, found, listed⟩ := lists
  have busy := getElem?_modifyStream (f := fun cell => { cell with busy := true }) found
  cases vs with
  | nil =>
    refine ⟨_, reaches_pull found (reaches_advance_listed_nil listed), ⟨s, ?_, listed⟩, ?_,
      fun id other => ?_⟩
    · exact getElem?_modifyStream (h := (h.setBusy src true).record (.exhausted src)) busy
    · exact pulls_record_self rfl _
    · exact (getElem?_modifyStream_of_ne other).trans (getElem?_modifyStream_of_ne other)
  | cons v vs =>
    let s' : Source := { s with supply := .listed (vs.map .element), position := s.position + 1 }
    let event := Event.pull src s.position none
    let moved := (h.setBusy src true).setCursor src (.source s')
    refine ⟨_, reaches_pull found (reaches_advance_listed_cons listed), ⟨s', ?_, rfl⟩, ?_,
      fun id other => ?_⟩
    · exact getElem?_modifyStream (h := moved.record event) (getElem?_modifyStream busy)
    · exact pulls_record_self rfl _
    · exact (getElem?_modifyStream_of_ne other).trans
        ((getElem?_modifyStream_of_ne other).trans (getElem?_modifyStream_of_ne other))

theorem reaches_advance_cut (apart : top ≠ src) (lists : Lists src vs h)
    (found : h.streams[top.index]? = some ⟨.sliced src s (some left) position, true⟩) :
    ∃ taken h', Reaches (fun n => advance n top (.sliced src s (some left) position)) h
      (.ok taken) h' ∧ Asked src s top true left vs h taken h' := by
  induction vs generalizing h left position with
  | nil =>
    cases left with
    | zero => exact ⟨none, h, reaches_advance_spent, by simp [Asked, pullsInAll]⟩
    | succ left =>
      obtain ⟨h', ends, -, counted, -⟩ :=
        (lists.of_same (getElem?_modifyStream_of_ne apart.symm)).reaches_pull
      refine ⟨none, h', reaches_advance_sliced_none (by simp) ends, counted.trans ?_⟩
      simp [pullsInAll, pulls, modifyStream]
  | cons v vs ih =>
    cases left with
    | zero => exact ⟨none, h, reaches_advance_spent, by simp [Asked, pullsInAll]⟩
    | succ left =>
      -- The element is counted, whether it is skipped or not.
      let counting := h.setCursor top (.sliced src s (some left) position)
      obtain ⟨g, takes, lists', counted, others⟩ : ∃ g,
          Reaches (fun n => pull n src) counting (.ok (some v)) g ∧ Lists src vs g ∧
            g.pulls src = h.pulls src + 1 ∧
            ∀ id ≠ src, g.streams[id.index]? = counting.streams[id.index]? :=
        (lists.of_same (getElem?_modifyStream_of_ne apart.symm)).reaches_pull
      let h₁ := g.setCursor top (.sliced src s (some left) (position + 1))
      have found₁ : h₁.streams[top.index]? =
          some ⟨.sliced src s (some left) (position + 1), true⟩ :=
        getElem?_modifyStream ((others top apart).trans (getElem?_modifyStream found))
      have lists₁ : Lists src vs h₁ := lists'.of_same (getElem?_modifyStream_of_ne apart.symm)
      have total : pullsInAll src left vs h₁ = pullsInAll src (left + 1) (v :: vs) h := by
        have same : h₁.pulls src = g.pulls src := rfl
        simp only [pullsInAll, same, counted, List.length_cons]
        omega
      by_cases contains : s.contains position = true
      · exact ⟨some v, h₁, reaches_advance_some_of_contains (by simp) contains takes,
          left, vs, List.suffix_rfl, ⟨apart, ⟨_, found₁⟩, lists₁⟩, total⟩
      · obtain ⟨taken, h', goesOn, asked⟩ := ih lists₁ found₁
        refine ⟨taken, h', reaches_advance_of_not_contains (by simp) contains takes goesOn, ?_⟩
        cases taken with
        | none => exact Eq.trans asked total
        | some w =>
          obtain ⟨left', vs', later, cut, same⟩ := asked
          exact ⟨left', vs', later.trans (List.suffix_cons v vs), cut, same.trans total⟩

theorem Cut.reaches_pull (cut : Cut src s top false left vs h) :
    ∃ taken h', Reaches (fun n => pull n top) h (.ok taken) h' ∧
      Asked src s top false left vs h taken h' := by
  obtain ⟨apart, ⟨position, found⟩, lists⟩ := cut
  obtain ⟨taken, g, moves, asked⟩ := reaches_advance_cut (h := h.setBusy top true) apart
    (lists.of_same (getElem?_modifyStream_of_ne apart.symm)) (getElem?_modifyStream found)
  refine ⟨taken, _, Evaluation.reaches_pull found moves, ?_⟩
  cases taken with
  | none => exact asked
  | some v =>
    obtain ⟨left', vs', later, ⟨_, ⟨position', found'⟩, lists'⟩, total⟩ := asked
    exact ⟨left', vs', later, ⟨apart, ⟨position', getElem?_modifyStream found'⟩,
      lists'.of_same (getElem?_modifyStream_of_ne apart.symm)⟩, total⟩

theorem Cut.of_beside (cut : Cut src s top busy left vs h) (outside : top ∉ R.streams)
    (source : src ∉ R.streams) (beside : Beside R h h') :
    Cut src s top busy left vs h' ∧ pullsInAll src left vs h' = pullsInAll src left vs h := by
  obtain ⟨apart, ⟨position, found⟩, lists⟩ := cut
  refine ⟨⟨apart, ⟨position, (beside.streams top outside).trans found⟩,
    lists.of_same (beside.streams src source)⟩, ?_⟩
  rw [pullsInAll, pullsInAll, beside.pulls src source]

/-- Without streams in the elements, settling succeeds. -/
theorem Cut.reaches_drain (cut : Cut src s top false left vs h)
    (settled : ∀ v ∈ vs, v.Settled) :
    ∃ ws h', Reaches (fun n => drain n top) h (.ok ws) h' := by
  obtain ⟨k, at_k⟩ : ∃ k, k = vs.length := ⟨_, rfl⟩
  induction k using Nat.strong_induction_on generalizing h left vs with
  | _ k ih =>
    obtain ⟨taken, g, pulls, asked⟩ := cut.reaches_pull
    cases taken with
    | none => exact ⟨[], g, reaches_drain_none pulls⟩
    | some v =>
      obtain ⟨left', vs', later, cut', -⟩ := asked
      have shorter : vs'.length < k := at_k ▸ later.length_le
      have each := fun w mem => settled w (later.subset mem)
      obtain ⟨ws, h', drains⟩ := ih _ shorter cut'
        (fun w mem => each w (List.mem_cons_of_mem _ mem)) rfl
      exact ⟨v :: ws, h', reaches_drain_some pulls
        ((reaches_settle_of_settled (each v (List.mem_cons_self ..))).mpr ⟨rfl, rfl⟩) drains⟩

end Evaluation

open Evaluation Host Run

end TreeQuery
