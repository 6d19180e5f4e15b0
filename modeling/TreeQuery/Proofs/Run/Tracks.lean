import Mathlib.Data.List.Forall2
import TreeQuery.Proofs.Run.InTurn

/-!
# Runs that keep to others

Two runs may differ in what they do to the state on their way, and still come to results that belong
together: the same failure, or values that are related. The second run here is one that has no need
of the state, so it may start anywhere and leaves no trace.

## Main definitions

* `Run.Agree` — results that belong together
* `Run.Tracks` — a run whose results belong to those of another one

## Main statements

* `Run.Tracks.bind`, `Run.tracks_mapM`, `Run.tracks_foldlM` — tracking, step by step
-/

namespace TreeQuery

namespace Run

variable {σ ε α α' β β' γ : Type}

/-- The same failure, or values that are related. -/
inductive Agree (R : α → β → Prop) : Except ε α → Except ε β → Prop
  | failure (e : ε) : Agree R (.error e) (.error e)
  | value {a : α} {b : β} (related : R a b) : Agree R (.ok a) (.ok b)

/-- From each of certain states the run comes to a result and leaves one of these states; wherever
the other run starts from, it comes to a result that agrees and leaves no trace. Both do so with
every allowance that is large enough. -/
def Tracks (valid : σ → Prop) (r : (allowance : Nat) → Run σ ε α)
    (r' : (allowance : Nat) → Run σ ε β) (R : α → β → Prop) : Prop :=
  ∀ s t, valid s → ∃ result result' s', valid s' ∧ Agree R result result' ∧
    ∃ n, ∀ m, n ≤ m →
      (r m).outcome s = some (result, s') ∧ (r' m).outcome t = some (result', t)

variable {valid : σ → Prop} {R : α → β → Prop} {R' : α' → β' → Prop}

theorem tracks_pure {a : α} {b : β} (related : R a b) :
    Tracks valid (fun _ => (pure a : Run σ ε α)) (fun _ => pure b) R :=
  fun s _ good => ⟨_, _, s, good, .value related, 0, fun _ _ => ⟨rfl, rfl⟩⟩

theorem tracks_throw (e : ε) :
    Tracks valid (fun _ => (throw e : Run σ ε α)) (fun _ => throw e) R :=
  fun s _ good => ⟨_, _, s, good, .failure e, 0, fun _ _ => ⟨rfl, rfl⟩⟩

/-- What tracks with one nested call more, tracks. -/
theorem Tracks.of_succ {r : Nat → Run σ ε α} {r' : Nat → Run σ ε β}
    (h : Tracks valid (fun n => r (n + 1)) (fun n => r' (n + 1)) R) : Tracks valid r r' R := by
  intro s t good
  obtain ⟨result, result', s', good', agree, n, outcomes⟩ := h s t good
  refine ⟨result, result', s', good', agree, n + 1, fun m le => ?_⟩
  obtain ⟨m, rfl⟩ : ∃ k, m = k + 1 := ⟨m - 1, by omega⟩
  exact outcomes m (by omega)

theorem Tracks.bind {r : Nat → Run σ ε α} {r' : Nat → Run σ ε β} {f : Nat → α → Run σ ε α'}
    {f' : Nat → β → Run σ ε β'} (h : Tracks valid r r' R)
    (next : ∀ a b, R a b → Tracks valid (fun n => f n a) (fun n => f' n b) R') :
    Tracks valid (fun n => r n >>= f n) (fun n => r' n >>= f' n) R' := by
  intro s t good
  obtain ⟨_, _, s', good', agree, n, first⟩ := h s t good
  cases agree with
  | failure e =>
    refine ⟨.error e, .error e, s', good', .failure e, n, fun m le => ?_⟩
    simp only [outcome_bind, first m le, and_self]
  | @value a b related =>
    obtain ⟨result, result', s'', good'', agree, n', second⟩ := next a b related s' t good'
    refine ⟨result, result', s'', good'', agree, max n n', fun m le => ?_⟩
    simp only [outcome_bind, first m (by omega)]
    exact second m (by omega)

theorem tracks_mapM {f : Nat → α → Run σ ε α'} {f' : Nat → β → Run σ ε β'} {as : List α}
    {bs : List β}
    (each : List.Forall₂ (fun a b => Tracks valid (fun n => f n a) (fun n => f' n b) R') as bs) :
    Tracks valid (fun n => as.mapM (f n)) (fun n => bs.mapM (f' n)) (List.Forall₂ R') := by
  induction each with
  | nil => exact tracks_pure .nil
  | cons first _ rest =>
    simp only [List.mapM_cons]
    refine first.bind fun _ _ related => rest.bind fun _ _ others => ?_
    exact tracks_pure (.cons related others)

theorem tracks_foldlM {f : Nat → α → γ → Run σ ε α} {f' : Nat → β → γ → Run σ ε β} {cs : List γ}
    (step : ∀ c ∈ cs, ∀ a b, R a b → Tracks valid (fun n => f n a c) (fun n => f' n b c) R)
    {a : α} {b : β} (related : R a b) :
    Tracks valid (fun n => cs.foldlM (f n) a) (fun n => cs.foldlM (f' n) b) R := by
  induction cs generalizing a b with
  | nil => exact tracks_pure related
  | cons c cs ih =>
    simp only [List.foldlM_cons]
    exact (step c (List.mem_cons_self ..) a b related).bind fun a' b' =>
      ih fun c' mem => step c' (List.mem_cons_of_mem _ mem)

end Run

end TreeQuery
