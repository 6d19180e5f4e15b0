import TreeQuery.Evaluation
import TreeQuery.Value.Closed

/-!
# Evaluation on closed values

On a closed value every filter comes to an end: its size and the depth of the value bound how many
nested calls there are. The host is left as it was, the result is closed too, and a failure is about
the data alone.

## Main statements

* `Evaluation.quiet_select`, `Evaluation.quiet_eval` — steps and filters on a closed value
* `Evaluation.settle_of_closed` — a closed value is settled
-/

namespace TreeQuery

namespace Evaluation

open Value

variable {h : Host} {n d : Nat} {v : Value}

theorem quiet_elementAt {α : Type} (xs : List α) (i : Nat) :
    Run.Quiet (elementAt xs i) h (· ∈ xs) EvalError.OfData := by
  unfold elementAt
  split
  · next x found => exact Run.quiet_pure (List.mem_of_getElem? found)
  · exact Run.quiet_throw trivial

/-- A step into a closed value gives a closed value that is no deeper. -/
theorem quiet_select {s : Selector} (hv : ClosedWithin d v) (hn : d < n) :
    Run.Quiet (select n s v) h (ClosedWithin d) EvalError.OfData := by
  induction n generalizing d v with
  | zero => omega
  | succ n ih =>
    have flat {w : Value} (closed : w.isClosed = true) (flat : w.depth = 0) :
        Run.Quiet (pure w : Evaluation Value) h (ClosedWithin d) EvalError.OfData :=
      Run.quiet_pure (closedWithin_of_flat closed flat)
    unfold select
    split
    · exact absurd hv not_closedWithin_link
    · exact Run.quiet_pure hv
    · obtain ⟨d, rfl, closed⟩ := hv.items
      exact (Run.quiet_mapM fun item mem => ih (closed item mem) (by omega)).bind fun _ results =>
        Run.quiet_pure (closedWithin_array_iff.mpr results)
    · exact absurd hv not_closedWithin_stream
    · next name _ _ _ =>
      cases found : v.member? name with
      | none => exact flat rfl rfl
      | some w => exact Run.quiet_pure (closedWithin_member? hv found)
    · obtain ⟨d, rfl, closed⟩ := hv.items
      exact (quiet_elementAt _ _).mono fun w mem => (closed w mem).mono (Nat.le_succ _)
    · exact (quiet_elementAt _ _).bind fun _ _ => flat rfl rfl
    · exact (quiet_elementAt _ _).bind fun _ _ => flat rfl rfl
    · exact absurd hv not_closedWithin_stream
    · exact flat rfl rfl
    · obtain ⟨d, rfl, closed⟩ := hv.items
      exact Run.quiet_pure (closedWithin_array_iff.mpr fun w mem =>
        closed w (Slice.mem_of_mem_apply mem))
    · exact flat rfl rfl
    · exact flat rfl rfl
    · exact absurd hv not_closedWithin_stream
    · exact flat rfl rfl

/-- Steps into a closed value give a closed value that is no deeper. -/
theorem quiet_foldlM_select {steps : List Selector} (hv : ClosedWithin d v) (hn : d < n) :
    Run.Quiet (steps.foldlM (fun v s => select n s v) v) h (ClosedWithin d) EvalError.OfData := by
  induction steps generalizing v with
  | nil => exact Run.quiet_pure hv
  | cons s steps ih =>
    rw [List.foldlM_cons]
    exact (quiet_select hv hn).bind fun w hw => ih hw

/-- A closed value is no link that would have to be resolved. -/
theorem resolve_of_closed (hv : ClosedWithin d v) (hn : 0 < n) : resolve n v = pure v := by
  cases n with
  | zero => exact absurd hn (Nat.lt_irrefl 0)
  | succ n =>
    unfold resolve
    split
    · exact absurd hv not_closedWithin_link
    · rfl

theorem quiet_operate {f : Filter} {op : Operator} {a b : Value} :
    Run.Quiet (operate f op a b) h (ClosedWithin d) EvalError.OfData := by
  unfold operate
  split
  · exact Run.quiet_pure (closedWithin_of_flat rfl rfl)
  · exact Run.quiet_throw trivial

/-- A closed value is settled. -/
theorem settle_of_closed (hv : ClosedWithin d v) (hn : d < n) : settle n v = pure v := by
  induction n generalizing d v with
  | zero => omega
  | succ n ih =>
    unfold settle
    split
    · exact absurd hv not_closedWithin_stream
    · obtain ⟨d, rfl, closed⟩ := hv.items
      rw [Run.mapM_eq_pure fun item mem => ih (closed item mem) (by omega), pure_bind]
    · obtain ⟨d, rfl, closed⟩ := hv.members
      rw [Run.mapM_eq_pure fun m mem => by simp [ih (closed m mem) (by omega)], pure_bind]
    · obtain ⟨d, rfl, closed⟩ := hv.fields
      rw [Run.mapM_eq_pure fun w mem => ih (closed w mem) (by omega), pure_bind]
    · rfl

/-- If every filter does so, a pipe applied to a closed value gives a closed value. -/
theorem quiet_foldlM_eval {stages : List Filter} (hv : ClosedWithin d v)
    (hn : Filter.sizeOfAll stages + d < n)
    (stage : ∀ {d v} {f : Filter}, ClosedWithin d v → f.size + d < n →
      Run.Quiet (eval n f v) h (ClosedWithin (d + f.size)) EvalError.OfData) :
    Run.Quiet (stages.foldlM (fun v f => eval n f v) v) h
      (ClosedWithin (d + Filter.sizeOfAll stages)) EvalError.OfData := by
  induction stages generalizing d v with
  | nil => exact Run.quiet_pure hv
  | cons f stages ih =>
    rw [Filter.sizeOfAll] at hn ⊢
    rw [List.foldlM_cons, ← Nat.add_assoc]
    exact (stage hv (by omega)).bind fun w hw => ih hw (by omega)

/-- A filter applied to a closed value gives a closed value. -/
theorem quiet_eval {f : Filter} (hv : ClosedWithin d v) (hn : f.size + d < n) :
    Run.Quiet (eval n f v) h (ClosedWithin (d + f.size)) EvalError.OfData := by
  induction n generalizing d v f with
  | zero => omega
  | succ n ih =>
    -- The bound is what the size of the filter may add to the depth of the value.
    have flat {w : Value} (closed : w.isClosed = true) (flat : w.depth = 0) :
        Run.Quiet (pure w : Evaluation Value) h (ClosedWithin (d + f.size)) EvalError.OfData :=
      Run.quiet_pure (closedWithin_of_flat closed flat)
    have positive := f.size_pos
    unfold eval
    split
    · exact absurd hv not_closedWithin_link
    · exact (quiet_select hv (by omega)).mono fun _ hw => hw.mono (Nat.le_add_right ..)
    · exact (quiet_foldlM_select hv (by omega)).mono fun _ hw => hw.mono (Nat.le_add_right ..)
    · rw [Filter.size] at hn ⊢
      exact (quiet_foldlM_eval hv (by omega) ih).mono fun _ hw => hw.mono (by omega)
    · exact absurd hv not_closedWithin_stream
    · exact flat rfl rfl
    · exact flat rfl rfl
    · next size =>
      cases v.size? with
      | none => exact flat rfl rfl
      | some n => exact flat rfl rfl
    · rw [Filter.size] at hn ⊢
      refine (ih hv (by omega)).bind fun a ha => (ih hv (by omega)).bind fun b hb => ?_
      rw [resolve_of_closed ha (by omega), resolve_of_closed hb (by omega), pure_bind, pure_bind]
      exact quiet_operate
    · rw [Filter.size] at hn
      rw [Filter.size, ← Nat.add_assoc]
      refine (Run.quiet_mapM fun g mem => ?_).bind fun results closed =>
        Run.quiet_pure (closedWithin_array_iff.mpr closed)
      have := Filter.size_le_of_mem mem
      refine (ih hv (by omega)).bind fun w hw => ?_
      rw [settle_of_closed hw (by omega)]
      exact Run.quiet_pure (hw.mono (Nat.add_le_add_left this d))
    · rw [Filter.size] at hn
      rw [Filter.size, ← Nat.add_assoc]
      refine (Run.quiet_mapM fun entry mem => ?_).bind fun results closed =>
        Run.quiet_pure (closedWithin_ofMembers closed)
      obtain ⟨name, g⟩ := entry
      have : g.size ≤ _ := Filter.size_le_of_mem_entries mem
      refine (ih hv (by omega)).bind fun w hw => ?_
      rw [settle_of_closed hw (by omega), pure_bind]
      exact Run.quiet_pure (hw.mono (Nat.add_le_add_left this d))

end Evaluation

end TreeQuery
