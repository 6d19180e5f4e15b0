import TreeQuery.Evaluation

/-!
# The allowance of an evaluation

The allowance decides only whether an evaluation comes to an end. Once it does, a larger allowance
changes nothing, so it makes sense to speak of the outcome of an evaluation.

## Main statements

* `Evaluation.resolve_extendedBy`, `Evaluation.eval_extendedBy`, `Evaluation.settle_extendedBy`,
  `Evaluation.pull_extendedBy` — a larger allowance keeps every outcome
-/

namespace TreeQuery

namespace Evaluation

open Run

/-- One more nested call keeps every outcome. -/
structure Keeps (n : Nat) : Prop where
  eval : ∀ f v, ExtendedBy (eval n f v) (eval (n + 1) f v)
  select : ∀ s v, ExtendedBy (select n s v) (select (n + 1) s v)
  gather : ∀ s id, ExtendedBy (gather n s id) (gather (n + 1) s id)
  settle : ∀ v, ExtendedBy (settle n v) (settle (n + 1) v)
  drain : ∀ id, ExtendedBy (drain n id) (drain (n + 1) id)
  pull : ∀ id, ExtendedBy (pull n id) (pull (n + 1) id)
  advance : ∀ id c, ExtendedBy (advance n id c) (advance (n + 1) id c)
  transform : ∀ t v, ExtendedBy (transform n t v) (transform (n + 1) t v)

theorem resolve_extendedBy_succ (n : Nat) (v : Value) :
    ExtendedBy (resolve n v) (resolve (n + 1) v) := by
  induction n generalizing v with
  | zero => exact cutOff_extendedBy _
  | succ n ih =>
    unfold resolve
    split
    · exact (ExtendedBy.refl _).bind ih
    · exact .refl _

theorem Keeps.eval_succ {n : Nat} (ih : Keeps n) (f : Filter) (v : Value) :
    ExtendedBy (Evaluation.eval (n + 1) f v) (Evaluation.eval (n + 2) f v) := by
  unfold Evaluation.eval
  split
  · exact (ExtendedBy.refl _).bind fun w => ih.eval _ w
  · exact ih.select _ _
  · exact .foldlM (fun w s => ih.select s w) _ _
  · exact .foldlM (fun w f => ih.eval f w) _ _
  · exact .refl _
  · exact .refl _
  · exact .refl _
  · exact .refl _
  · exact (ih.eval _ _).bind fun a => (ih.eval _ _).bind fun b =>
      (resolve_extendedBy_succ n a).bind fun _ => (resolve_extendedBy_succ n b).bind fun _ => .refl _
  · exact (ExtendedBy.mapM (fun g => (ih.eval g _).bind ih.settle) _).bind fun _ => .refl _
  · refine (ExtendedBy.mapM (fun entry => ?_) _).bind fun _ => .refl _
    exact (ih.eval _ _).bind fun w => (ih.settle w).bind fun _ => .refl _

theorem Keeps.select_succ {n : Nat} (ih : Keeps n) (s : Selector) (v : Value) :
    ExtendedBy (Evaluation.select (n + 1) s v) (Evaluation.select (n + 2) s v) := by
  unfold Evaluation.select
  split
  · exact (ExtendedBy.refl _).bind fun w => ih.select _ w
  · exact .refl _
  · exact (ExtendedBy.mapM (fun w => ih.select _ w) _).bind fun _ => .refl _
  · exact .refl _
  · exact .refl _
  · exact .refl _
  · exact .refl _
  · exact .refl _
  · exact (ih.gather _ _).bind fun _ => .refl _
  · exact .refl _
  · exact .refl _
  · exact .refl _
  · exact .refl _
  · exact .refl _
  · exact .refl _

theorem Keeps.gather_succ {n : Nat} (ih : Keeps n) (s : Selector) (id : StreamId) :
    ExtendedBy (Evaluation.gather (n + 1) s id) (Evaluation.gather (n + 2) s id) := by
  unfold Evaluation.gather
  refine (ih.pull id).bind fun taken => ?_
  split
  · exact .refl _
  · exact (ih.select _ _).bind fun _ => (ih.gather _ _).bind fun _ => .refl _

theorem Keeps.settle_succ {n : Nat} (ih : Keeps n) (v : Value) :
    ExtendedBy (Evaluation.settle (n + 1) v) (Evaluation.settle (n + 2) v) := by
  unfold Evaluation.settle
  split
  · exact (ih.drain _).bind fun _ => .refl _
  · exact (ExtendedBy.mapM ih.settle _).bind fun _ => .refl _
  · refine (ExtendedBy.mapM (fun m => ?_) _).bind fun _ => .refl _
    exact (ih.settle _).bind fun _ => .refl _
  · exact (ExtendedBy.mapM ih.settle _).bind fun _ => .refl _
  · exact .refl _

theorem Keeps.drain_succ {n : Nat} (ih : Keeps n) (id : StreamId) :
    ExtendedBy (Evaluation.drain (n + 1) id) (Evaluation.drain (n + 2) id) := by
  unfold Evaluation.drain
  refine (ih.pull id).bind fun taken => ?_
  split
  · exact .refl _
  · exact (ih.settle _).bind fun _ => (ih.drain _).bind fun _ => .refl _

theorem Keeps.pull_succ {n : Nat} (ih : Keeps n) (id : StreamId) :
    ExtendedBy (Evaluation.pull (n + 1) id) (Evaluation.pull (n + 2) id) := by
  unfold Evaluation.pull
  refine (ExtendedBy.refl _).bind fun found => ?_
  split
  · exact .refl _
  · split
    · exact .refl _
    · exact (ExtendedBy.refl _).bind fun _ => (ih.advance _ _).attempt.bind fun _ => .refl _

theorem Keeps.advance_succ {n : Nat} (ih : Keeps n) (id : StreamId) (c : Cursor) :
    ExtendedBy (Evaluation.advance (n + 1) id c) (Evaluation.advance (n + 2) id c) := by
  unfold Evaluation.advance
  split
  · refine (ExtendedBy.refl _).bind fun item => ?_
    split
    · exact .refl _
    · exact .refl _
    · exact .refl _
    · refine (ExtendedBy.refl _).bind fun named => ?_
      split
      · exact ih.pull _
      · exact .refl _
  · refine (ih.pull _).bind fun taken => ?_
    split
    · exact .refl _
    · exact (ih.transform _ _).bind fun _ => .refl _
  · exact .refl _
  · refine (ExtendedBy.refl _).bind fun _ => (ih.pull _).attempt.bind fun taken => ?_
    split
    · exact .refl _
    · refine (ExtendedBy.refl _).bind fun _ => ?_
      split
      · exact .refl _
      · exact ih.advance _ _
    · exact .refl _

theorem Keeps.transform_succ {n : Nat} (ih : Keeps n) (t : Transform) (v : Value) :
    ExtendedBy (Evaluation.transform (n + 1) t v) (Evaluation.transform (n + 2) t v) := by
  unfold Evaluation.transform
  split
  · exact ih.eval _ _
  · exact ih.select _ _
  · exact .refl _

/-- One more nested call keeps every outcome. -/
theorem keeps_all (n : Nat) : Keeps n := by
  induction n with
  | zero => constructor <;> intros <;> exact cutOff_extendedBy _
  | succ n ih =>
    exact {
      eval := ih.eval_succ
      select := ih.select_succ
      gather := ih.gather_succ
      settle := ih.settle_succ
      drain := ih.drain_succ
      pull := ih.pull_succ
      advance := ih.advance_succ
      transform := ih.transform_succ }

/-- What each further nested call keeps, any number of them keeps. -/
theorem extendedBy_of_succ {α : Type} {r : Nat → Evaluation α}
    (succ : ∀ n, ExtendedBy (r n) (r (n + 1))) {n m : Nat} (h : n ≤ m) : ExtendedBy (r n) (r m) := by
  induction h with
  | refl => exact .refl _
  | step _ ih => exact ih.trans (succ _)

variable {n m : Nat}

theorem resolve_extendedBy (h : n ≤ m) (v : Value) : ExtendedBy (resolve n v) (resolve m v) :=
  extendedBy_of_succ (fun n => resolve_extendedBy_succ n v) h

theorem eval_extendedBy (h : n ≤ m) (f : Filter) (v : Value) :
    ExtendedBy (eval n f v) (eval m f v) :=
  extendedBy_of_succ (fun n => (keeps_all n).eval f v) h

theorem select_extendedBy (h : n ≤ m) (s : Selector) (v : Value) :
    ExtendedBy (select n s v) (select m s v) :=
  extendedBy_of_succ (fun n => (keeps_all n).select s v) h

theorem settle_extendedBy (h : n ≤ m) (v : Value) : ExtendedBy (settle n v) (settle m v) :=
  extendedBy_of_succ (fun n => (keeps_all n).settle v) h

theorem pull_extendedBy (h : n ≤ m) (id : StreamId) : ExtendedBy (pull n id) (pull m id) :=
  extendedBy_of_succ (fun n => (keeps_all n).pull id) h

end Evaluation

end TreeQuery
