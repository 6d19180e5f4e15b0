import TreeQuery.Proofs.Host.Region
import TreeQuery.Proofs.Evaluation.Rules

/-!
# Evaluation stays within a region

An evaluation sees of a host what its value leads to, and no more. So from a value in a region it
gives values in the region, leaves what stands beside the region as it was, and comes to the same
whatever stands there.

## Main definitions

* `Evaluation.Confined` — a run that keeps to a region

## Main statements

* `Evaluation.confined_eval`, `Evaluation.confined_settle`, `Evaluation.confined_pull` — evaluation
  keeps to the region that its value is in
-/

namespace TreeQuery

namespace Evaluation

open Host Run

/-- From every host where the region is sealed, the run leaves such a host, with what stands beside
the region as it was, and gives values that are as stated. Whatever is changed beside the region
before the run, might as well be changed after it. -/
structure Confined {α : Type} (R : Region) (r : Evaluation α) (P : α → Prop) : Prop where
  leaves : ∀ h result h', h.Sealed R → r.outcome h = some (result, h') →
    h'.Sealed R ∧ Beside R h h' ∧ ∀ a, result = .ok a → P a
  blind : ∀ h id f, h.Sealed R → id ∉ R.streams →
    r.outcome (h.modifyStream id f) =
      (r.outcome h).map fun (result, h') => (result, h'.modifyStream id f)

variable {α β : Type} {R : Region} {P : α → Prop} {Q : β → Prop} {v : Value} {id : StreamId}

/-! ### Rules -/

theorem confined_pure {a : α} (h : P a) : Confined R (pure a : Evaluation α) P where
  leaves := by
    rintro g _ _ sealed ⟨⟩
    exact ⟨sealed, .refl R g, fun b same => Except.ok.inj same ▸ h⟩
  blind _ _ _ _ _ := rfl

theorem confined_throw {e : EvalError} : Confined R (throw e : Evaluation α) P where
  leaves := by
    rintro g _ _ sealed ⟨⟩
    exact ⟨sealed, .refl R g, nofun⟩
  blind _ _ _ _ _ := rfl

theorem confined_cutOff : Confined R (Run.cutOff : Evaluation α) P where
  leaves _ _ _ _ ho := nomatch ho
  blind _ _ _ _ _ := rfl

theorem confined_ofExcept {x : Except EvalError α} (h : ∀ a, x = .ok a → P a) :
    Confined R (Run.ofExcept x) P := by
  cases x with
  | ok a => exact confined_pure (h a rfl)
  | error e => exact confined_throw

theorem Confined.bind {r : Evaluation α} {f : α → Evaluation β} (h : Confined R r P)
    (next : ∀ a, P a → Confined R (f a) Q) : Confined R (r >>= f) Q where
  leaves g result g' sealed ho := by
    rw [outcome_bind] at ho
    split at ho
    · cases ho
    · next a mid first =>
      obtain ⟨sealed', beside, value⟩ := h.leaves g _ _ sealed first
      obtain ⟨sealed'', beside', value'⟩ := (next a (value a rfl)).leaves _ _ g' sealed' ho
      exact ⟨sealed'', beside.trans beside', value'⟩
    · next e mid first =>
      cases ho
      obtain ⟨sealed', beside, -⟩ := h.leaves g _ _ sealed first
      exact ⟨sealed', beside, nofun⟩
  blind g id f sealed outside := by
    rw [outcome_bind, outcome_bind, h.blind g id f sealed outside]
    cases first : r.outcome g with
    | none => rfl
    | some out =>
      obtain ⟨result, mid⟩ := out
      cases result with
      | error e => rfl
      | ok a =>
        obtain ⟨sealed', -, value⟩ := h.leaves g _ _ sealed first
        exact (next a (value a rfl)).blind _ id f sealed' outside

theorem Confined.attempt {r : Evaluation α} (h : Confined R r P) :
    Confined R r.attempt fun result => ∀ a, result = .ok a → P a where
  leaves g result g' sealed ho := by
    obtain ⟨⟨inner, mid⟩, reached, same⟩ := Option.map_eq_some_iff.mp ho
    cases same
    obtain ⟨sealed', beside, value⟩ := h.leaves g inner _ sealed reached
    exact ⟨sealed', beside, fun _ same a ok => value a ((Except.ok.inj same).trans ok)⟩
  blind g id f sealed outside := by
    rw [outcome_attempt, outcome_attempt, h.blind g id f sealed outside, Option.map_map,
      Option.map_map]
    rfl

theorem confined_mapM {f : α → Evaluation β} {as : List α}
    (each : ∀ a ∈ as, Confined R (f a) Q) :
    Confined R (as.mapM f) fun bs => ∀ b ∈ bs, Q b := by
  induction as with
  | nil => exact confined_pure nofun
  | cons a as ih =>
    rw [List.mapM_cons]
    refine (each a (List.mem_cons_self ..)).bind fun b first => ?_
    refine (ih fun a' mem => each a' (List.mem_cons_of_mem _ mem)).bind fun bs rest => ?_
    exact confined_pure (List.forall_mem_cons.mpr ⟨first, rest⟩)

theorem confined_foldlM {f : α → β → Evaluation α} {bs : List β}
    (step : ∀ a b, P a → Confined R (f a b) P) {a : α} (start : P a) :
    Confined R (bs.foldlM f a) P := by
  induction bs generalizing a with
  | nil => exact confined_pure start
  | cons b bs ih =>
    rw [List.foldlM_cons]
    exact (step a b start).bind fun a' => ih

/-! ### Host operations -/

/-- A run that changes the host and gives a value, whatever the host. -/
def step (f : Host → α × Host) : Evaluation α :=
  .ofOutcome fun h => some (.ok (f h).1, (f h).2)

theorem confined_step {f : Host → α × Host}
    (leaves : ∀ h, h.Sealed R → (f h).2.Sealed R ∧ Beside R h (f h).2 ∧ P (f h).1)
    (blind : ∀ h id g, h.Sealed R → id ∉ R.streams →
      f (h.modifyStream id g) = ((f h).1, (f h).2.modifyStream id g)) :
    Confined R (step f) P where
  leaves := by
    rintro h _ _ sealed ⟨⟩
    obtain ⟨sealed', beside, value⟩ := leaves h sealed
    exact ⟨sealed', beside, fun a same => Except.ok.inj same ▸ value⟩
  blind h id g sealed outside := by
    simp only [step, outcome_ofOutcome, blind h id g sealed outside]
    rfl

theorem confined_read {f : Host → α} (value : ∀ h, h.Sealed R → P (f h))
    (blind : ∀ h id g, id ∉ R.streams → f (h.modifyStream id g) = f h) :
    Confined R (Run.read f) P :=
  confined_step (f := fun h => (f h, h)) (fun h sealed => ⟨sealed, .refl R h, value h sealed⟩)
    fun h id g _ outside => by rw [blind h id g outside]

/-- Changing a stream of the region so that its elements still come from within the region. -/
theorem confined_modifyStream {f : StreamCell → StreamCell} (inside : id ∈ R.streams)
    (keeps : ∀ cell : StreamCell, cell.cursor.In R → (f cell).cursor.In R) :
    Confined R (Run.change (modifyStream id f)) fun _ => True := by
  refine confined_step (f := fun h => ((), h.modifyStream id f)) (fun h sealed => ?_) ?_
  · exact ⟨sealed.modifyStream fun _ => keeps, beside_modifyStream inside, trivial⟩
  · intro h id' g _ outside
    have other : id' ≠ id := fun same => outside (same ▸ inside)
    rw [modifyStream_comm other]

theorem confined_record {event : Event} (inside : ∀ id, event.stream? = some id → id ∈ R.streams) :
    Confined R (Run.change (Host.record event)) fun _ => True := by
  refine confined_step (f := fun h => ((), h.record event)) (fun h sealed => ⟨?_, ?_, trivial⟩)
    fun h id g _ _ => rfl
  · exact ⟨sealed.links, sealed.streams, sealed.names, sealed.newLinks, sealed.newStreams⟩
  · refine ⟨fun _ _ => rfl, fun id outside => ?_⟩
    have other : event.stream? ≠ some id := fun same => outside (inside id same)
    rw [pulls_record, if_neg other, Nat.add_zero]

theorem confined_openStream {c : Cursor} (inside : c.In R) :
    Confined R (openStream c) fun id => id ∈ R.streams := by
  refine confined_step (f := fun h => h.addStream c) (fun h sealed => ?_) ?_
  · exact ⟨sealed.addStream inside, beside_addStream sealed c,
      sealed.newStreams _ (Nat.le_refl _)⟩
  · exact fun h id g sealed outside => addStream_modifyStream c (sealed.lt_size outside)

/-- Adding a link. -/
theorem confined_addLink {r : Resolver} (inside : r.In R) :
    Confined R (step fun h => h.addLink r) fun id => id ∈ R.links := by
  refine confined_step (fun h sealed => ?_) fun h id g _ _ => rfl
  exact ⟨sealed.addLink inside, ⟨fun _ _ => rfl, fun _ _ => rfl⟩, sealed.newLinks _ (Nat.le_refl _)⟩

/-! ### Making values -/

theorem confined_newLink {r : Resolver} (inside : r.In R) :
    Confined R (do return .link (← step (addLink r))) (Value.In R) :=
  (confined_addLink inside).bind fun id mem => confined_pure (by rwa [Value.In])

theorem confined_newStream {c : Cursor} (inside : c.In R) :
    Confined R (do return .stream (← openStream c)) (Value.In R) :=
  (confined_openStream inside).bind fun id mem => confined_pure (by rwa [Value.In])

mutual

/-- What is made from a blueprint within a region is in the region. -/
theorem confined_build : ∀ {b : Blueprint}, b.In R → Confined R (step b.build) (Value.In R)
  | .value v, h => by
    rw [Blueprint.In] at h
    exact confined_pure h
  | .array items, h => by
    rw [Blueprint.In] at h
    have parts : step (Blueprint.array items).build =
        (do return .array (← step (buildAll items)) : Evaluation Value) := rfl
    rw [parts]
    refine (confined_buildAll h).bind fun vs inside => confined_pure ?_
    rwa [Value.In]
  | .object members, h => by
    rw [Blueprint.In] at h
    have parts : step (Blueprint.object members).build =
        (do return .ofMembers (← step (buildMembers members)) : Evaluation Value) := rfl
    rw [parts]
    exact (confined_buildMembers h).bind fun ms inside => confined_pure (Value.in_ofMembers inside)
  | .record type values, h => by
    rw [Blueprint.In] at h
    have parts : step (Blueprint.record type values).build =
        (do return .ofFields type (← step (buildAll values)) : Evaluation Value) := rfl
    rw [parts]
    exact (confined_buildAll h).bind fun vs inside => confined_pure (Value.in_ofFields inside)
  | .named name, h => by
    rw [Blueprint.In] at h
    refine confined_read (f := fun h => (h.names.lookup name).getD .null) (fun g sealed => ?_)
      fun _ _ _ _ => rfl
    cases found : g.names.lookup name with
    | none => exact Value.in_null
    | some v => exact sealed.names name h v found
  | .link label plan, h => by
    rw [Blueprint.In] at h
    exact confined_buildLink h
  | .stream label plan, h => by
    rw [Blueprint.In] at h
    exact confined_buildStream h
termination_by b => sizeOf b

theorem confined_buildAll : ∀ {bs : List Blueprint}, (∀ b ∈ bs, b.In R) →
    Confined R (step (buildAll bs)) fun vs => ∀ v ∈ vs, v.In R
  | [], _ => confined_pure nofun
  | b :: bs, h => by
    rw [List.forall_mem_cons] at h
    have parts : step (buildAll (b :: bs)) =
        (do return (← step b.build) :: (← step (buildAll bs)) : Evaluation (List Value)) := rfl
    rw [parts]
    refine (confined_build h.1).bind fun v first => (confined_buildAll h.2).bind fun vs rest => ?_
    exact confined_pure (List.forall_mem_cons.mpr ⟨first, rest⟩)
termination_by bs => sizeOf bs

theorem confined_buildMembers : ∀ {ms : List (String × Blueprint)}, (∀ m ∈ ms, m.2.In R) →
    Confined R (step (buildMembers ms)) fun vs => ∀ m ∈ vs, m.2.In R
  | [], _ => confined_pure nofun
  | (name, b) :: ms, h => by
    rw [List.forall_mem_cons] at h
    have parts : step (buildMembers ((name, b) :: ms)) =
        (do return (name, ← step b.build) :: (← step (buildMembers ms)) :
          Evaluation (List (String × Value))) := rfl
    rw [parts]
    refine (confined_build h.1).bind fun v first => ?_
    refine (confined_buildMembers h.2).bind fun vs rest => ?_
    exact confined_pure (List.forall_mem_cons.mpr ⟨first, rest⟩)
termination_by ms => sizeOf ms

theorem confined_buildItems : ∀ {plans : List ItemPlan}, (∀ plan ∈ plans, plan.In R) →
    Confined R (step (buildItems plans)) fun items => ∀ item ∈ items, item.In R
  | [], _ => confined_pure nofun
  | .element b :: plans, h => by
    rw [List.forall_mem_cons, ItemPlan.In] at h
    have parts : step (buildItems (.element b :: plans)) =
        (do return .element (← step b.build) :: (← step (buildItems plans)) :
          Evaluation (List Item)) := rfl
    rw [parts]
    refine (confined_build h.1).bind fun v inside => ?_
    refine (confined_buildItems h.2).bind fun items others => ?_
    exact confined_pure (List.forall_mem_cons.mpr ⟨inside, others⟩)
  | .failure reason :: plans, h => by
    rw [List.forall_mem_cons] at h
    have parts : step (buildItems (.failure reason :: plans)) =
        (do return .failure (.linkFailure reason) :: (← step (buildItems plans)) :
          Evaluation (List Item)) := rfl
    rw [parts]
    exact (confined_buildItems h.2).bind fun items others =>
      confined_pure (List.forall_mem_cons.mpr ⟨trivial, others⟩)
  | .pull name :: plans, h => by
    rw [List.forall_mem_cons, ItemPlan.In] at h
    have parts : step (buildItems (.pull name :: plans)) =
        (do return .pull name :: (← step (buildItems plans)) : Evaluation (List Item)) := rfl
    rw [parts]
    exact (confined_buildItems h.2).bind fun items others =>
      confined_pure (List.forall_mem_cons.mpr ⟨h.1, others⟩)
termination_by plans => sizeOf plans

theorem confined_buildLink : ∀ {plan : LinkPlan} {label : String}, plan.In R →
    Confined R (step (plan.build label)) (Value.In R)
  | .target b, label, h => by
    rw [LinkPlan.In] at h
    have parts : step (LinkPlan.build (.target b) label) = (do
        let v ← step b.build
        return .link (← step (addLink ⟨label, .give v, []⟩)) : Evaluation Value) := rfl
    rw [parts]
    exact (confined_build h).bind fun v inside => confined_newLink ⟨inside, nofun⟩
  | .steps first later, label, h => by
    rw [LinkPlan.In] at h
    exact confined_newLink (r := ⟨label, first.toStep, stepsOf later⟩)
      ⟨h.1.toStep, in_stepsOf h.2⟩
termination_by plan => sizeOf plan

theorem confined_buildStream : ∀ {plan : StreamPlan} {label : String}, plan.In R →
    Confined R (step (plan.build label)) (Value.In R)
  | .plain elements, label, h => by
    rw [StreamPlan.In] at h
    have parts : step (StreamPlan.build (.plain elements) label) = (do
        let vs ← step (buildAll elements)
        return .stream (← openStream (.source ⟨label, false, .listed (vs.map .element), 0⟩)) :
          Evaluation Value) := rfl
    rw [parts]
    refine (confined_buildAll h).bind fun vs inside => confined_newStream ?_
    intro item mem
    obtain ⟨v, mem', rfl⟩ := List.mem_map.mp mem
    exact inside v mem'
  | .counting first key, label, _ =>
    confined_newStream (c := .source ⟨label, true, .endless (countingElement first key), 0⟩)
      fun position => in_countingElement first key position
  | .items items, label, h => by
    rw [StreamPlan.In] at h
    have parts : step (StreamPlan.build (.items items) label) = (do
        let items ← step (buildItems items)
        return .stream (← openStream (.source ⟨label, true, .listed items, 0⟩)) :
          Evaluation Value) := rfl
    rw [parts]
    exact (confined_buildItems h).bind fun items inside => confined_newStream inside
termination_by plan => sizeOf plan

end

/-! ### Links and sources -/

/-- Resolving a link, taken apart: its resolver goes on, the log has it, and then its step is
done. -/
theorem resolveOnce_eq (id : LinkId) :
    resolveOnce id = (do
      match ← Run.read fun h => h.links[id.index]? with
      | none => .cutOff
      | some r =>
        .change fun h => { h with links := h.links.set! id.index r.advance }
        .change (Host.record (.resolution id r.current.failure?))
        match r.current with
        | .give v => return v
        | .make b => step b.build
        | .failure reason => throw (.linkFailure reason)) := by
  funext h
  change (resolveOnce id).outcome h = Run.outcome _ h
  rw [outcome_bind, outcome_read]
  cases found : h.links[id.index]? with
  | none => simp only [resolveOnce, outcome_ofOutcome, found, outcome_cutOff]
  | some r =>
    simp only [resolveOnce, outcome_ofOutcome, found, outcome_bind, outcome_change]
    cases r.current <;> rfl

theorem confined_resolveOnce {id : LinkId} (inside : id ∈ R.links) :
    Confined R (resolveOnce id) (Value.In R) := by
  rw [resolveOnce_eq]
  have reads : Confined R (Run.read fun h => h.links[id.index]? : Evaluation _)
      fun found => ∀ r, found = some r → r.In R :=
    confined_read (fun h sealed r found => sealed.links id inside r found) fun _ _ _ _ => rfl
  refine reads.bind fun found inside => ?_
  split
  · exact confined_cutOff
  next r =>
  have sets : Confined R (Run.change fun h : Host =>
      { h with links := h.links.set! id.index r.advance }) fun _ => True := by
    refine confined_step (f := fun h =>
      ((), { h with links := h.links.set! id.index r.advance })) (fun h sealed => ?_)
      fun _ _ _ _ _ => rfl
    exact ⟨sealed.setLink (inside r rfl).advance, ⟨fun _ _ => rfl, fun _ _ => rfl⟩, trivial⟩
  -- Moving the resolver on and recording it are no matter of any stream.
  have logs : Confined R (Run.change (Host.record (.resolution id r.current.failure?)))
      fun _ => True := confined_record fun id same => by cases same
  refine sets.bind fun _ _ => logs.bind fun _ _ => ?_
  have current := (inside r rfl).current
  split
  · next same =>
    rw [same] at current
    exact confined_pure current
  · next same =>
    rw [same] at current
    exact confined_build current
  · exact confined_throw

theorem confined_setCursor {c : Cursor} (inside : id ∈ R.streams) (comes : c.In R) :
    Confined R (Run.change (setCursor id c)) fun _ => True :=
  confined_modifyStream inside fun _ _ => comes

theorem confined_setBusy {busy : Bool} (inside : id ∈ R.streams) :
    Confined R (Run.change (setBusy id busy)) fun _ => True :=
  confined_modifyStream inside fun _ comes => comes

theorem confined_takeItem {s : Source} (inside : id ∈ R.streams) (gives : s.supply.In R) :
    Confined R (takeItem id s) fun taken => ∀ item, taken = some item → item.In R := by
  have pulled {event : Event} (same : event.stream? = some id) :=
    confined_record (R := R) fun id' same' =>
      Option.some.inj (same.symm.trans same') ▸ inside
  unfold takeItem
  split
  · exact (pulled rfl).bind fun _ _ => confined_pure nofun
  · next item s' taken =>
    obtain ⟨first, rest⟩ := gives.take? taken
    refine (confined_setCursor (c := .source s') inside rest).bind fun _ _ => ?_
    refine (pulled rfl).bind fun _ _ => ?_
    exact confined_pure fun item' same => Option.some.inj same ▸ first

theorem confined_streamNamed? {name : String} (inside : name ∈ R.names) :
    Confined R (streamNamed? name) fun found => ∀ id, found = some id → id ∈ R.streams := by
  refine confined_read (fun h sealed id found => ?_) fun _ _ _ _ => rfl
  cases named : h.names.lookup name with
  | none => simp [named] at found
  | some v =>
    have within := sealed.names name inside v named
    cases v with
    | stream id' =>
      simp only [named, Option.some.injEq] at found
      rw [Value.In] at within
      exact found ▸ within
    | _ => simp [named] at found

/-! ### Evaluation -/

/-- Every evaluation with this allowance keeps to the region that it starts in. -/
structure Confines (R : Region) (n : Nat) : Prop where
  eval : ∀ f v, v.In R → Confined R (eval n f v) (Value.In R)
  select : ∀ s v, v.In R → Confined R (select n s v) (Value.In R)
  gather : ∀ s, ∀ id ∈ R.streams, Confined R (gather n s id) fun vs => ∀ v ∈ vs, v.In R
  settle : ∀ v, v.In R → Confined R (settle n v) (Value.In R)
  drain : ∀ id ∈ R.streams, Confined R (drain n id) fun vs => ∀ v ∈ vs, v.In R
  pull : ∀ id ∈ R.streams, Confined R (pull n id) fun taken => ∀ v, taken = some v → v.In R
  advance : ∀ id ∈ R.streams, ∀ c : Cursor, c.In R →
    Confined R (advance n id c) fun taken => ∀ v, taken = some v → v.In R
  transform : ∀ t v, t.In R → v.In R → Confined R (transform n t v) (Value.In R)

theorem confined_mapStream {t : Transform} (inside : id ∈ R.streams) (within : t.In R) :
    Confined R (mapStream id t) (Value.In R) :=
  confined_newStream ⟨inside, within⟩

theorem confined_sliceStream {s : Slice} (inside : id ∈ R.streams) :
    Confined R (sliceStream id s) (Value.In R) := by
  unfold sliceStream
  split
  · exact confined_pure (by rwa [Value.In])
  · exact confined_newStream (c := .sliced id s s.stop 0) inside

theorem confined_resolve (n : Nat) (inside : v.In R) : Confined R (resolve n v) (Value.In R) := by
  induction n generalizing v with
  | zero => exact confined_cutOff
  | succ n ih =>
    unfold resolve
    split
    · rw [Value.In] at inside
      exact (confined_resolveOnce inside).bind fun _ => ih
    · exact confined_pure inside

theorem confined_elementAt {α : Type} {P : α → Prop} {xs : List α} (all : ∀ x ∈ xs, P x)
    (i : Nat) : Confined R (elementAt xs i) P := by
  unfold elementAt
  split
  · next x found => exact confined_pure (all x (List.mem_of_getElem? found))
  · exact confined_throw

theorem in_of_flat (closed : v.isClosed = true) (flat : v.depth = 0) : v.In R := by
  cases v <;> simp_all [Value.In, Value.isClosed, Value.depth]

theorem confined_operate {f : Filter} {op : Operator} {a b : Value} :
    Confined R (operate f op a b) (Value.In R) := by
  unfold operate
  split
  · exact confined_pure (in_of_flat rfl rfl)
  · exact confined_throw

variable {n : Nat}

theorem Confines.eval_succ (ih : Confines R n) (f : Filter) (v : Value) (inside : v.In R) :
    Confined R (Evaluation.eval (n + 1) f v) (Value.In R) := by
  -- Texts, numbers and lengths hold no streams; everything else is made of parts that are in the
  -- region by induction.
  unfold Evaluation.eval
  split
  · rw [Value.In] at inside
    exact (confined_resolveOnce inside).bind fun w => ih.eval _ w
  · exact ih.select _ _ inside
  · exact confined_foldlM (fun w s => ih.select s w) inside
  · exact confined_foldlM (fun w f => ih.eval f w) inside
  · rw [Value.In] at inside
    exact confined_mapStream inside trivial
  · exact confined_pure (in_of_flat rfl rfl)
  · exact confined_pure (in_of_flat rfl rfl)
  · cases v.size? with
    | none => exact confined_pure (in_of_flat rfl rfl)
    | some size => exact confined_pure (in_of_flat rfl rfl)
  · refine (ih.eval _ _ inside).bind fun a insideA => (ih.eval _ _ inside).bind fun b insideB => ?_
    refine (confined_resolve n insideA).bind fun _ _ => ?_
    refine (confined_resolve n insideB).bind fun _ _ => ?_
    exact confined_operate
  · refine (confined_mapM fun g _ => (ih.eval g _ inside).bind ih.settle).bind fun vs all => ?_
    exact confined_pure (by rwa [Value.In])
  · refine (confined_mapM (Q := fun m => m.2.In R) fun entry _ => ?_).bind fun ms all =>
      confined_pure (Value.in_ofMembers all)
    exact (ih.eval _ _ inside).bind fun w within => (ih.settle w within).bind fun _ inside' =>
      confined_pure inside'

theorem Confines.select_succ (ih : Confines R n) (s : Selector) (v : Value) (inside : v.In R) :
    Confined R (Evaluation.select (n + 1) s v) (Value.In R) := by
  -- What a step finds in a value is in the region as the value is; what it makes has no streams, or
  -- one that is fed from there.
  unfold Evaluation.select
  split
  · rw [Value.In] at inside
    exact (confined_resolveOnce inside).bind fun w => ih.select _ w
  · exact confined_pure inside
  · rw [Value.In] at inside
    refine (confined_mapM fun w mem => ih.select _ w (inside w mem)).bind fun vs all => ?_
    exact confined_pure (by rwa [Value.In])
  · rw [Value.In] at inside
    exact confined_mapStream inside trivial
  · next name _ _ _ =>
    cases found : v.member? name with
    | none => exact confined_pure Value.in_null
    | some w => exact confined_pure (inside.member? found)
  · rw [Value.In] at inside
    exact confined_elementAt inside _
  · exact (confined_elementAt (P := fun _ => True) (fun _ _ => trivial) _).bind fun _ _ =>
      confined_pure (in_of_flat rfl rfl)
  · exact (confined_elementAt (P := fun _ => True) (fun _ _ => trivial) _).bind fun _ _ =>
      confined_pure (in_of_flat rfl rfl)
  · rw [Value.In] at inside
    refine (ih.gather _ _ inside).bind fun vs all => confined_pure ?_
    rwa [Value.In]
  · exact confined_pure Value.in_null
  · rw [Value.In] at inside
    refine confined_pure ?_
    rw [Value.In]
    exact fun w mem => inside w (Slice.mem_of_mem_apply mem)
  · exact confined_pure (in_of_flat rfl rfl)
  · exact confined_pure (in_of_flat rfl rfl)
  · rw [Value.In] at inside
    exact confined_sliceStream inside
  · exact confined_pure Value.in_null

theorem Confines.gather_succ (ih : Confines R n) (s : Selector) (id : StreamId)
    (inside : id ∈ R.streams) :
    Confined R (Evaluation.gather (n + 1) s id) fun vs => ∀ v ∈ vs, v.In R := by
  unfold Evaluation.gather
  refine (ih.pull id inside).bind fun taken within => ?_
  split
  · exact confined_pure nofun
  · next v =>
    refine (ih.select s v (within v rfl)).bind fun w first => ?_
    refine (ih.gather s id inside).bind fun ws rest => ?_
    exact confined_pure (List.forall_mem_cons.mpr ⟨first, rest⟩)

theorem Confines.settle_succ (ih : Confines R n) (v : Value) (inside : v.In R) :
    Confined R (Evaluation.settle (n + 1) v) (Value.In R) := by
  unfold Evaluation.settle
  split
  · rw [Value.In] at inside
    refine (ih.drain _ inside).bind fun vs all => confined_pure ?_
    rwa [Value.In]
  · rw [Value.In] at inside
    refine (confined_mapM fun w mem => ih.settle w (inside w mem)).bind fun vs all =>
      confined_pure ?_
    rwa [Value.In]
  · rw [Value.In] at inside
    refine (confined_mapM (Q := fun m => m.2.In R) fun m mem => ?_).bind fun vs all =>
      confined_pure ?_
    · exact (ih.settle m.2 (inside m mem)).bind fun _ inside' => confined_pure inside'
    · rwa [Value.In]
  · rw [Value.In] at inside
    refine (confined_mapM fun w mem => ih.settle w (inside w mem)).bind fun vs all =>
      confined_pure ?_
    rwa [Value.In]
  · exact confined_pure inside

theorem Confines.drain_succ (ih : Confines R n) (id : StreamId) (inside : id ∈ R.streams) :
    Confined R (Evaluation.drain (n + 1) id) fun vs => ∀ v ∈ vs, v.In R := by
  unfold Evaluation.drain
  refine (ih.pull id inside).bind fun taken within => ?_
  split
  · exact confined_pure nofun
  · next v =>
    refine (ih.settle v (within v rfl)).bind fun w first => ?_
    refine (ih.drain id inside).bind fun ws rest => ?_
    exact confined_pure (List.forall_mem_cons.mpr ⟨first, rest⟩)

theorem Confines.pull_succ (ih : Confines R n) (id : StreamId) (inside : id ∈ R.streams) :
    Confined R (Evaluation.pull (n + 1) id) fun taken => ∀ v, taken = some v → v.In R := by
  unfold Evaluation.pull
  have reads : Confined R (Run.read fun h => h.streams[id.index]? : Evaluation _)
      fun found => ∀ cell, found = some cell → cell.cursor.In R := by
    refine confined_read (fun h sealed cell found => sealed.streams id inside cell found) ?_
    exact fun h id' f outside => getElem?_modifyStream_of_ne fun same => outside (same ▸ inside)
  refine reads.bind fun found within => ?_
  split
  · exact confined_cutOff
  · next cell =>
    split
    · exact confined_throw
    · refine (confined_setBusy inside).bind fun _ _ => ?_
      refine (ih.advance id inside _ (within cell rfl)).attempt.bind fun result taken => ?_
      exact (confined_setBusy inside).bind fun _ _ => confined_ofExcept taken

/-- A stream whose elements are transformed keeps to the region that it is fed from. -/
theorem Confines.advance_mapped (ih : Confines R n) {feed : StreamId} {t : Transform}
    (fed : feed ∈ R.streams) (within : t.In R) (id : StreamId) :
    Confined R (Evaluation.advance (n + 1) id (.mapped feed t))
      fun taken => ∀ v, taken = some v → v.In R := by
  unfold Evaluation.advance
  refine (ih.pull feed fed).bind fun taken gives => ?_
  split
  · exact confined_pure nofun
  · next v =>
    refine (ih.transform t v within (gives v rfl)).bind fun w result => ?_
    exact confined_pure fun w' same => Option.some.inj same ▸ result

theorem Confines.advance_succ (ih : Confines R n) (id : StreamId) (inside : id ∈ R.streams)
    (c : Cursor) (comes : c.In R) :
    Confined R (Evaluation.advance (n + 1) id c) fun taken => ∀ v, taken = some v → v.In R := by
  cases c with
  | source s =>
    unfold Evaluation.advance
    refine (confined_takeItem inside comes).bind fun taken within => ?_
    split
    · exact confined_pure nofun
    · exact confined_pure fun w same => Option.some.inj same ▸ within _ rfl
    · exact confined_throw
    · refine (confined_streamNamed? (within _ rfl)).bind fun found named => ?_
      split
      · exact ih.pull _ (named _ rfl)
      · exact confined_pure nofun
  | mapped feed t => exact ih.advance_mapped comes.1 comes.2 id
  | sliced feed slice budget position =>
    -- A cursor that counts is still fed from the region.
    have moved (budget' : Option Nat) (position' : Nat) :
        Confined R (Run.change (setCursor id (.sliced feed slice budget' position')))
          fun _ => True :=
        confined_setCursor (c := .sliced feed slice budget' position') inside comes
    unfold Evaluation.advance
    split
    · next same => cases same
    · next same => cases same
    · exact confined_pure nofun
    · next same =>
      cases same
      refine (moved _ _).bind fun _ _ => (ih.pull feed comes).attempt.bind fun result gives => ?_
      split
      · exact confined_pure nofun
      · next v =>
        refine (moved _ _).bind fun _ _ => ?_
        split
        · exact confined_pure fun w same => gives _ rfl w same
        · exact ih.advance id inside _ comes
      · exact (moved _ _).bind fun _ _ => confined_throw

theorem Confines.transform_succ (ih : Confines R n) (t : Transform) (v : Value) (within : t.In R)
    (inside : v.In R) : Confined R (Evaluation.transform (n + 1) t v) (Value.In R) := by
  unfold Evaluation.transform
  split
  · exact ih.eval _ _ inside
  · exact ih.select _ _ inside
  · next f => exact confined_ofExcept fun w given => within R (.refl R) v w inside given

/-- Every evaluation keeps to the region that it starts in. -/
theorem confines_all (R : Region) (n : Nat) : Confines R n := by
  induction n with
  | zero => constructor <;> intros <;> exact confined_cutOff
  | succ n ih =>
    exact {
      eval := ih.eval_succ
      select := ih.select_succ
      gather := ih.gather_succ
      settle := ih.settle_succ
      drain := ih.drain_succ
      pull := ih.pull_succ
      advance := ih.advance_succ
      transform := ih.transform_succ }

end Evaluation

end TreeQuery
