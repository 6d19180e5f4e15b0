/-!
# Runs

A run reads and changes a state, and either gives a value or fails with a cause. The state outlives
a failure, so what happened before it can still be observed. A run may also have no outcome at all:
its allowance of nested steps was used up before it came to an end. The allowance is an ordinary
argument of the functions that need one, and a run that ends does so alike under every larger
allowance.

## Main definitions

* `Run` — computations over a state, with failure and with cut-off
* `Run.outcome` — what a run does from a given state
* `Run.attempt` — a failure taken as a value
* `Run.Ends` — a run comes to an end, and its value, if any, is as stated
* `Run.ExtendedBy` — a run has every outcome that another one has
* `Run.Quiet` — a run comes to an end and leaves no trace in the state
-/

namespace TreeQuery

/-- Computations over the state `σ` that give a value, fail with a cause in `ε`, or are cut off. -/
abbrev Run (σ ε : Type) : Type → Type := ExceptT ε (StateT σ Option)

namespace Run

variable {σ ε α β : Type}

/-- What the run does from a state: its value or cause of failure with the state it leaves behind,
or nothing when it is cut off. -/
def outcome (r : Run σ ε α) (s : σ) : Option (Except ε α × σ) :=
  StateT.run (ExceptT.run r) s

/-- The run whose outcomes are given by a function. -/
def ofOutcome (f : σ → Option (Except ε α × σ)) : Run σ ε α :=
  ExceptT.mk f

/-- The run that has no outcome. -/
def cutOff : Run σ ε α :=
  ofOutcome fun _ => none

/-- Give the value or fail with the cause that is already known. -/
def ofExcept : Except ε α → Run σ ε α
  | .ok a => pure a
  | .error e => throw e

/-- Change the state. -/
def change (f : σ → σ) : Run σ ε Unit :=
  ofOutcome fun s => some (.ok (), f s)

/-- Read from the state. -/
def read (f : σ → α) : Run σ ε α :=
  ofOutcome fun s => some (.ok (f s), s)

/-- A failure of the run becomes a value, and the state it leaves is kept. -/
def attempt (r : Run σ ε α) : Run σ ε (Except ε α) :=
  ofOutcome fun s => (r.outcome s).map fun (result, s') => (.ok result, s')

/-- The same run, with its cause of failure told in other words. -/
def mapError {ε' : Type} (f : ε → ε') (r : Run σ ε α) : Run σ ε' α :=
  ofOutcome fun s => (r.outcome s).map fun (result, s') => (result.mapError f, s')

@[simp] theorem outcome_ofOutcome (f : σ → Option (Except ε α × σ)) (s : σ) :
    outcome (ofOutcome f) s = f s := rfl

@[simp] theorem outcome_pure (a : α) (s : σ) :
    outcome (pure a : Run σ ε α) s = some (.ok a, s) := rfl

@[simp] theorem outcome_throw (e : ε) (s : σ) :
    outcome (throw e : Run σ ε α) s = some (.error e, s) := rfl

@[simp] theorem outcome_cutOff (s : σ) : outcome (cutOff : Run σ ε α) s = none := rfl

@[simp] theorem outcome_change (f : σ → σ) (s : σ) :
    outcome (change f : Run σ ε Unit) s = some (.ok (), f s) := rfl

@[simp] theorem outcome_read (f : σ → α) (s : σ) :
    outcome (read f : Run σ ε α) s = some (.ok (f s), s) := rfl

@[simp] theorem outcome_attempt (r : Run σ ε α) (s : σ) :
    outcome (attempt r) s = (r.outcome s).map fun (result, s') => (.ok result, s') := rfl

@[simp] theorem outcome_mapError {ε' : Type} (f : ε → ε') (r : Run σ ε α) (s : σ) :
    outcome (mapError f r) s = (r.outcome s).map fun (result, s') => (result.mapError f, s') := rfl

/-- A run followed by another goes on from the state that the first one leaves, and ends with it
where the first one fails. -/
theorem outcome_bind (r : Run σ ε α) (f : α → Run σ ε β) (s : σ) :
    outcome (r >>= f) s =
      match r.outcome s with
      | none => none
      | some (.ok a, s') => (f a).outcome s'
      | some (.error e, s') => some (.error e, s') := by
  simp only [outcome, ExceptT.run_bind, StateT.run_bind]
  cases h : StateT.run (ExceptT.run r) s with
  | none => rfl
  | some p =>
    obtain ⟨result, s'⟩ := p
    cases result <;> rfl

/-! ### Runs that come to an end -/

/-- The run comes to an end from `s`, and a value that it gives is as stated together with the state
that it leaves. A failure is an end too. -/
def Ends (r : Run σ ε α) (s : σ) (post : α → σ → Prop) : Prop :=
  ∃ result s', r.outcome s = some (result, s') ∧ ∀ a, result = .ok a → post a s'

theorem ends_pure {a : α} {s : σ} {post : α → σ → Prop} (h : post a s) :
    Ends (pure a : Run σ ε α) s post :=
  ⟨.ok a, s, rfl, fun _ h' => Except.ok.inj h' ▸ h⟩

theorem ends_throw {e : ε} {s : σ} {post : α → σ → Prop} :
    Ends (throw e : Run σ ε α) s post :=
  ⟨.error e, s, rfl, fun _ h' => nomatch h'⟩

theorem ends_change {f : σ → σ} {s : σ} {post : Unit → σ → Prop} (h : post () (f s)) :
    Ends (change f : Run σ ε Unit) s post :=
  ⟨.ok (), f s, rfl, fun _ _ => h⟩

/-- A run followed by another comes to an end if the first does, and the second does from wherever
the first may leave off. -/
theorem Ends.bind {r : Run σ ε α} {f : α → Run σ ε β} {s : σ} {mid : α → σ → Prop}
    {post : β → σ → Prop} (h : Ends r s mid) (hf : ∀ a s', mid a s' → Ends (f a) s' post) :
    Ends (r >>= f) s post := by
  obtain ⟨result, s', ho, hm⟩ := h
  cases result with
  | error e =>
    exact ⟨.error e, s', by rw [outcome_bind, ho], fun _ h' => nomatch h'⟩
  | ok a =>
    obtain ⟨result', s'', ho', hp⟩ := hf a s' (hm a rfl)
    exact ⟨result', s'', by rw [outcome_bind, ho]; exact ho', hp⟩

theorem Ends.mono {r : Run σ ε α} {s : σ} {post post' : α → σ → Prop} (h : Ends r s post)
    (weaker : ∀ a s', post a s' → post' a s') : Ends r s post' := by
  obtain ⟨result, s', ho, hp⟩ := h
  exact ⟨result, s', ho, fun a ha => weaker a s' (hp a ha)⟩

theorem Ends.isSome {r : Run σ ε α} {s : σ} {post : α → σ → Prop} (h : Ends r s post) :
    (r.outcome s).isSome = true := by
  obtain ⟨result, s', ho, _⟩ := h
  rw [ho]
  rfl

/-! ### Runs that go further than others -/

/-- Whatever outcome the first run has, the second has it too. The second may have one where the first
is cut off. -/
def ExtendedBy (r r' : Run σ ε α) : Prop :=
  ∀ s out, r.outcome s = some out → r'.outcome s = some out

theorem ExtendedBy.refl (r : Run σ ε α) : ExtendedBy r r := fun _ _ h => h

theorem ExtendedBy.trans {r r' r'' : Run σ ε α} (h : ExtendedBy r r') (h' : ExtendedBy r' r'') :
    ExtendedBy r r'' :=
  fun s out ho => h' s out (h s out ho)

theorem cutOff_extendedBy (r : Run σ ε α) : ExtendedBy cutOff r := fun _ _ h => nomatch h

theorem ExtendedBy.bind {r r' : Run σ ε α} {f f' : α → Run σ ε β} (h : ExtendedBy r r')
    (hf : ∀ a, ExtendedBy (f a) (f' a)) : ExtendedBy (r >>= f) (r' >>= f') := by
  intro s out ho
  rw [outcome_bind] at ho ⊢
  split at ho
  · cases ho
  · next a s' first => rw [h s _ first]; exact hf a s' out ho
  · next e s' first => rw [h s _ first]; exact ho

theorem ExtendedBy.attempt {r r' : Run σ ε α} (h : ExtendedBy r r') :
    ExtendedBy (attempt r) (attempt r') := by
  intro s out ho
  obtain ⟨inner, hi, rfl⟩ := Option.map_eq_some_iff.mp ho
  rw [outcome_attempt, h s inner hi]
  rfl

theorem ExtendedBy.mapM {f f' : α → Run σ ε β} (h : ∀ a, ExtendedBy (f a) (f' a)) (xs : List α) :
    ExtendedBy (xs.mapM f) (xs.mapM f') := by
  induction xs with
  | nil => exact .refl _
  | cons x xs ih =>
    rw [List.mapM_cons, List.mapM_cons]
    exact (h x).bind fun _ => ih.bind fun _ => .refl _

theorem ExtendedBy.foldlM {f f' : β → α → Run σ ε β} (h : ∀ b a, ExtendedBy (f b a) (f' b a))
    (b : β) (xs : List α) : ExtendedBy (xs.foldlM f b) (xs.foldlM f' b) := by
  induction xs generalizing b with
  | nil => exact .refl _
  | cons x xs ih =>
    rw [List.foldlM_cons, List.foldlM_cons]
    exact (h b x).bind ih

/-! ### Runs that leave no trace -/

/-- The run comes to an end and leaves the state as it was; its value and its cause of failure are
as stated. -/
def Quiet (r : Run σ ε α) (s : σ) (good : α → Prop) (bad : ε → Prop) : Prop :=
  (∃ a, r.outcome s = some (.ok a, s) ∧ good a) ∨ (∃ e, r.outcome s = some (.error e, s) ∧ bad e)

theorem quiet_pure {a : α} {s : σ} {good : α → Prop} {bad : ε → Prop} (h : good a) :
    Quiet (pure a : Run σ ε α) s good bad :=
  .inl ⟨a, rfl, h⟩

theorem quiet_throw {e : ε} {s : σ} {good : α → Prop} {bad : ε → Prop} (h : bad e) :
    Quiet (throw e : Run σ ε α) s good bad :=
  .inr ⟨e, rfl, h⟩

theorem Quiet.bind {r : Run σ ε α} {f : α → Run σ ε β} {s : σ} {mid : α → Prop} {good : β → Prop}
    {bad : ε → Prop} (h : Quiet r s mid bad) (hf : ∀ a, mid a → Quiet (f a) s good bad) :
    Quiet (r >>= f) s good bad := by
  rcases h with ⟨a, ho, hm⟩ | ⟨e, ho, hb⟩
  · rcases hf a hm with ⟨b, ho', hg⟩ | ⟨e, ho', hb⟩
    · exact .inl ⟨b, by rw [outcome_bind, ho]; exact ho', hg⟩
    · exact .inr ⟨e, by rw [outcome_bind, ho]; exact ho', hb⟩
  · exact .inr ⟨e, by rw [outcome_bind, ho], hb⟩

theorem Quiet.imp {r : Run σ ε α} {s : σ} {good good' : α → Prop} {bad bad' : ε → Prop}
    (h : Quiet r s good bad) (weaker : ∀ a, good a → good' a) (worse : ∀ e, bad e → bad' e) :
    Quiet r s good' bad' := by
  rcases h with ⟨a, ho, hg⟩ | ⟨e, ho, hb⟩
  · exact .inl ⟨a, ho, weaker a hg⟩
  · exact .inr ⟨e, ho, worse e hb⟩

theorem Quiet.mono {r : Run σ ε α} {s : σ} {good good' : α → Prop} {bad : ε → Prop}
    (h : Quiet r s good bad) (weaker : ∀ a, good a → good' a) : Quiet r s good' bad :=
  h.imp weaker fun _ hb => hb

theorem Quiet.isSome {r : Run σ ε α} {s : σ} {good : α → Prop} {bad : ε → Prop}
    (h : Quiet r s good bad) : (r.outcome s).isSome = true := by
  rcases h with ⟨a, ho, _⟩ | ⟨e, ho, _⟩ <;> rw [ho] <;> rfl

/-- Quiet runs one after the other are quiet. -/
theorem quiet_mapM {f : α → Run σ ε β} {s : σ} {good : β → Prop} {bad : ε → Prop} {xs : List α}
    (h : ∀ x ∈ xs, Quiet (f x) s good bad) :
    Quiet (xs.mapM f) s (fun ys => ∀ y ∈ ys, good y) bad := by
  induction xs with
  | nil => exact quiet_pure fun _ hy => nomatch hy
  | cons x xs ih =>
    rw [List.mapM_cons]
    refine (h x (List.mem_cons_self ..)).bind fun y hy => ?_
    refine (ih fun x' hx' => h x' (List.mem_cons_of_mem _ hx')).bind fun ys hys => ?_
    exact quiet_pure (List.forall_mem_cons.mpr ⟨hy, hys⟩)

/-- Runs that give back what they are given do so one after the other. -/
theorem mapM_eq_pure {f : α → Run σ ε α} {xs : List α} (h : ∀ x ∈ xs, f x = pure x) :
    xs.mapM f = pure xs := by
  induction xs with
  | nil => rfl
  | cons x xs ih =>
    rw [List.mapM_cons, h x (List.mem_cons_self ..), pure_bind,
      ih fun x' mem => h x' (List.mem_cons_of_mem _ mem), pure_bind]

end Run

end TreeQuery
