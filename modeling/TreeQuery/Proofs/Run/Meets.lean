import TreeQuery.Run

/-!
# What a run comes to, if it ends

A run meets a pair of conditions from a state when every outcome that it has there satisfies one of
them: the first for its value and the state it leaves, the second for its cause of failure. A run
that is cut off meets everything, so that a property of a production or an evaluation can be shown
by induction on its allowance; that there is an outcome at all is another matter (`Run.Ends`).

## Main definitions

* `Run.Meets` — every outcome is as stated

## Main statements

* `Run.Meets.bind` — runs one after the other
-/

namespace TreeQuery

namespace Run

variable {σ ε α β : Type}

/-- Whatever outcome the run has from `s`: a value is `good` together with the state it leaves, a
cause of failure is `bad`. -/
def Meets (r : Run σ ε α) (s : σ) (good : α → σ → Prop) (bad : ε → Prop) : Prop :=
  ∀ result s', r.outcome s = some (result, s') →
    match result with
    | .ok a => good a s'
    | .error e => bad e

theorem meets_cutOff {s : σ} {good : α → σ → Prop} {bad : ε → Prop} :
    Meets (cutOff : Run σ ε α) s good bad :=
  fun _ _ h => nomatch h

theorem meets_pure {a : α} {s : σ} {good : α → σ → Prop} {bad : ε → Prop} (h : good a s) :
    Meets (pure a : Run σ ε α) s good bad := by
  intro result s' ho
  cases ho
  exact h

theorem meets_throw {e : ε} {s : σ} {good : α → σ → Prop} {bad : ε → Prop} (h : bad e) :
    Meets (throw e : Run σ ε α) s good bad := by
  intro result s' ho
  cases ho
  exact h

theorem meets_change {f : σ → σ} {s : σ} {good : Unit → σ → Prop} {bad : ε → Prop}
    (h : good () (f s)) : Meets (change f : Run σ ε Unit) s good bad := by
  intro result s' ho
  cases ho
  exact h

/-- A run followed by another meets what the second one meets from wherever the first may leave
off. -/
theorem Meets.bind {r : Run σ ε α} {f : α → Run σ ε β} {s : σ} {mid : α → σ → Prop}
    {good : β → σ → Prop} {bad : ε → Prop} (h : Meets r s mid bad)
    (hf : ∀ a s', mid a s' → Meets (f a) s' good bad) : Meets (r >>= f) s good bad := by
  intro result s' ho
  rw [outcome_bind] at ho
  split at ho
  · cases ho
  · next a s₁ first => exact hf a s₁ (h _ _ first) result s' ho
  · next e s₁ first =>
    cases ho
    exact h _ _ first

theorem Meets.imp {r : Run σ ε α} {s : σ} {good good' : α → σ → Prop} {bad bad' : ε → Prop}
    (h : Meets r s good bad) (weaker : ∀ a s', good a s' → good' a s')
    (worse : ∀ e, bad e → bad' e) : Meets r s good' bad' := by
  intro result s' ho
  have met := h result s' ho
  cases result with
  | ok a => exact weaker a s' met
  | error e => exact worse e met

theorem Meets.mono {r : Run σ ε α} {s : σ} {good good' : α → σ → Prop} {bad : ε → Prop}
    (h : Meets r s good bad) (weaker : ∀ a s', good a s' → good' a s') : Meets r s good' bad :=
  h.imp weaker fun _ hb => hb

/-- Every outcome is something. -/
theorem meets_any {r : Run σ ε α} {s : σ} :
    Meets r s (fun _ _ => True) fun _ => True := by
  intro result s' _
  cases result <;> trivial

/-- What the runs for single entries meet from any state, they meet one after the other. -/
theorem meets_mapM {f : α → Run σ ε β} {s : σ} {good : β → Prop} {bad : ε → Prop} {xs : List α}
    (h : ∀ x ∈ xs, ∀ s, Meets (f x) s (fun y _ => good y) bad) :
    Meets (xs.mapM f) s (fun ys _ => ∀ y ∈ ys, good y) bad := by
  induction xs generalizing s with
  | nil => exact meets_pure fun _ mem => nomatch mem
  | cons x xs ih =>
    rw [List.mapM_cons]
    refine (h x (List.mem_cons_self ..) s).bind fun y s' hy => ?_
    have rest := ih (s := s') fun x' mem => h x' (List.mem_cons_of_mem _ mem)
    exact rest.bind fun ys _ hys => meets_pure (List.forall_mem_cons.mpr ⟨hy, hys⟩)

/-- What each of several steps keeps, they keep one after the other. -/
theorem meets_foldlM {f : β → α → Run σ ε β} {s : σ} {b : β} {good : β → Prop} {bad : ε → Prop}
    {xs : List α}
    (h : ∀ x ∈ xs, ∀ b s, good b → Meets (f b x) s (fun b' _ => good b') bad) (start : good b) :
    Meets (xs.foldlM f b) s (fun b' _ => good b') bad := by
  induction xs generalizing b s with
  | nil => exact meets_pure start
  | cons x xs ih =>
    rw [List.forall_mem_cons] at h
    rw [List.foldlM_cons]
    exact (h.1 b s start).bind fun b' _ next => ih h.2 next

end Run

end TreeQuery
