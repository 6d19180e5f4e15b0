import TreeQuery.Proofs.Evaluation.Rules

/-!
# Stages on streams

A pipe of stages applied to a stream takes no element of it. Every stage either leaves the stream as
it is or puts a new one on top, whose elements are made from those of the one below when they are
asked for.

## Main definitions

* `Filter.stages` — the stages of a filter
* `Filter.Broadcasts` — filters that make something new of every element of a stream
* `Filter.layer?` — the cursor that a stage puts on top of a stream
* `Host.pile` — a host with the layers of several stages
* `Evaluation.through` — stages applied to a single element

## Main statements

* `Evaluation.reaches_eval_stages` — what a filter gives for a stream
* `Evaluation.reaches_eval_pipe` — a pipe follows a link only once
* `Evaluation.reaches_transform` — what is done to an element
-/

namespace TreeQuery

namespace Filter

/-- The stages that a filter is made of. -/
def stages : Filter → List Filter
  | pipe stages => stages
  | f => [f]

/-- The filter makes something new of every element of a stream. -/
def Broadcasts : Filter → Prop
  | select (.key _) => True
  | select _ => False
  | path _ => False
  | pipe _ => False
  | _ => True

/-- The filter works on the elements of a stream when they are asked for. -/
def Lazy : Filter → Prop
  | select .identity => True
  | select (.slice _) => True
  | f => f.Broadcasts

/-- What a filter that broadcasts does to an element. -/
def transform : Filter → Transform
  | select s => .selector s
  | f => .filter f

/-- The cursor that a stage puts on top of a stream, unless it leaves the stream as it is. -/
def layer? (feed : StreamId) : Filter → Option Cursor
  | select .identity => none
  | select (.slice s) => if s.all then none else some (.sliced feed s s.stop 0)
  | f => some (.mapped feed f.transform)

theorem Broadcasts.isLazy {f : Filter} (h : f.Broadcasts) : f.Lazy := by
  cases f with
  | select s => cases s <;> trivial
  | _ => exact h

theorem Broadcasts.layer?_eq {f : Filter} (h : f.Broadcasts) (feed : StreamId) :
    f.layer? feed = some (.mapped feed f.transform) := by
  cases f with
  | select s => cases s <;> first | rfl | exact h.elim
  | _ => rfl

end Filter

/-- The host with the layers that stages put on top of a stream, and the uppermost stream. -/
def Host.pile (h : Host) (id : StreamId) : List Filter → StreamId × Host
  | [] => (id, h)
  | f :: fs =>
    match f.layer? id with
    | none => h.pile id fs
    | some c => (h.addStream c).2.pile (h.addStream c).1 fs

/-- A pile adds streams to the host and changes nothing else. -/
theorem Host.exists_pile_eq (h : Host) (id : StreamId) (fs : List Filter) :
    ∃ cells, (h.pile id fs).2 = { h with streams := h.streams ++ cells } := by
  induction fs generalizing h id with
  | nil => exact ⟨#[], by simp [pile]⟩
  | cons f fs ih =>
    unfold pile
    split
    · exact ih h id
    · next c _ =>
      obtain ⟨cells, same⟩ := ih (h.addStream c).2 (h.addStream c).1
      refine ⟨#[⟨c, false⟩] ++ cells, ?_⟩
      rw [same, ← Array.append_assoc]
      rfl

namespace Evaluation

open Run

variable {f : Filter} {fs : List Filter} {v : Value} {id : StreamId} {h h' : Host}

/-- Stages applied to a value, one after the other. -/
def through (fs : List Filter) (v : Value) (allowance : Nat) : Evaluation Value :=
  fs.foldlM (fun v f => eval allowance f v) v

theorem steady_through (fs : List Filter) (v : Value) : Steady (through fs v) :=
  Steady.foldlM (fun v f => steady_eval f v) fs v

/-! ### Streams -/

theorem outcome_eval_stream (lazy : f.Lazy) (id : StreamId) (h : Host) (n : Nat) :
    (eval (n + 2) f (.stream id)).outcome h =
      some (.ok (.stream (h.pile id [f]).1), (h.pile id [f]).2) := by
  cases f with
  | select s =>
    cases s with
    | index i => exact lazy.elim
    | slice s =>
      simp only [eval, select, sliceStream, Host.pile, Filter.layer?]
      by_cases all : s.all = true
      · simp only [if_pos all]
        rfl
      · simp only [if_neg all]
        rfl
    | _ => rfl
  | path steps => exact lazy.elim
  | pipe stages => exact lazy.elim
  | _ => rfl

theorem pile_cons (h : Host) (id : StreamId) (f : Filter) (fs : List Filter) :
    h.pile id (f :: fs) = (h.pile id [f]).2.pile (h.pile id [f]).1 fs := by
  simp only [Host.pile]
  split <;> rfl

theorem outcome_through_stream (lazy : ∀ f ∈ fs, f.Lazy) (id : StreamId) (h : Host) (n : Nat) :
    (through fs (.stream id) (n + 2)).outcome h =
      some (.ok (.stream (h.pile id fs).1), (h.pile id fs).2) := by
  induction fs generalizing id h with
  | nil => rfl
  | cons f fs ih =>
    rw [List.forall_mem_cons] at lazy
    rw [pile_cons, through, List.foldlM_cons, outcome_bind, outcome_eval_stream lazy.1]
    exact ih lazy.2 _ _

/-- Applied to a stream, a filter whose stages are lazy gives a pile of layers on top of it. No
element is taken. -/
theorem reaches_eval_stages (lazy : ∀ g ∈ f.stages, g.Lazy) {result : Except EvalError Value} :
    Reaches (fun n => eval n f (.stream id)) h result h' ↔
      result = .ok (.stream (h.pile id f.stages).1) ∧ h' = (h.pile id f.stages).2 := by
  have outcome : Reaches (fun n => eval n f (.stream id)) h
      (.ok (.stream (h.pile id f.stages).1)) (h.pile id f.stages).2 := by
    cases f with
    | pipe stages => exact ⟨3, outcome_through_stream lazy id h 0⟩
    | _ => exact ⟨2, outcome_eval_stream (lazy _ (List.mem_singleton.mpr rfl)) id h 0⟩
  constructor
  · intro reached
    exact reached.unique outcome (steady_eval f _)
  · rintro ⟨rfl, rfl⟩
    exact outcome

/-! ### Elements -/

/-- Taking a step is applying the filter of one step. -/
theorem reaches_eval_select {s : Selector} {result : Except EvalError Value} :
    Reaches (fun n => eval n (.select s) v) h result h' ↔
      Reaches (fun n => select n s v) h result h' := by
  -- Both follow links in the same way, one nested call apart.
  have below (n : Nat) (v : Value) : ExtendedBy (eval n (.select s) v) (select n s v) := by
    induction n generalizing v with
    | zero => exact cutOff_extendedBy _
    | succ n ih =>
      by_cases link : v.kind = .link
      · cases v with
        | link id =>
          rw [eval, select]
          exact (ExtendedBy.refl _).bind ih
        | _ => cases link
      · rw [eval_select link]
        exact select_extendedBy (Nat.le_succ n) s v
  have above (n : Nat) (v : Value) : ExtendedBy (select n s v) (eval (n + 1) (.select s) v) := by
    induction n generalizing v with
    | zero => exact cutOff_extendedBy _
    | succ n ih =>
      by_cases link : v.kind = .link
      · cases v with
        | link id =>
          rw [eval, select]
          exact (ExtendedBy.refl _).bind ih
        | _ => cases link
      · rw [eval_select link]
        exact ExtendedBy.refl _
  constructor
  · rintro ⟨n, ho⟩
    exact ⟨n, below n v h _ ho⟩
  · rintro ⟨n, ho⟩
    exact ⟨n + 1, above n v h _ ho⟩

/-- A filter that broadcasts is applied to the elements one by one. -/
theorem reaches_transform {result : Except EvalError Value} :
    Reaches (fun n => transform n f.transform v) h result h' ↔
      Reaches (fun n => eval n f v) h result h' := by
  rw [← reaches_succ (steady_transform f.transform v)]
  cases f with
  | select s =>
    rw [reaches_eval_select]
    simp only [Filter.transform, transform]
  | _ => simp only [Filter.transform, transform]

theorem through_cons (f : Filter) (fs : List Filter) (v : Value) (n : Nat) :
    through (f :: fs) v n = eval n f v >>= fun w => through fs w n :=
  List.foldlM_cons ..

theorem eval_pipe_extendedBy (n : Nat) (v : Value) :
    ExtendedBy (eval n (.pipe (f :: fs)) v) (through (f :: fs) v n) := by
  induction n generalizing v with
  | zero => exact cutOff_extendedBy _
  | succ n ih =>
    by_cases link : v.kind = .link
    · cases v with
      | link id =>
        rw [through_cons, eval, eval, bind_assoc]
        refine (ExtendedBy.refl _).bind fun w => (ih w).trans ?_
        rw [through_cons]
        exact (ExtendedBy.refl _).bind fun u => steady_through fs u (Nat.le_succ n)
      | _ => cases link
    · rw [eval_pipe link]
      exact steady_through (f :: fs) v (Nat.le_succ n)

theorem exists_eval_pipe (n k : Nat) (v : Value) (h : Host) {out : Except EvalError Value × Host}
    (ho : (eval n f v >>= fun w => through fs w k).outcome h = some out) :
    ∃ m, (eval m (.pipe (f :: fs)) v).outcome h = some out := by
  induction n generalizing v h with
  | zero => cases ho
  | succ n ih =>
    by_cases link : v.kind = .link
    · cases v with
      | link id =>
        rw [eval, bind_assoc, outcome_bind] at ho
        cases first : (resolveOnce id).outcome h with
        | none =>
          rw [first] at ho
          cases ho
        | some resolved =>
          obtain ⟨e | w, mid⟩ := resolved
          · rw [first] at ho
            exact ⟨1, by rw [eval, outcome_bind, first]; exact ho⟩
          · rw [first] at ho
            obtain ⟨m, reached⟩ := ih w mid ho
            exact ⟨m + 1, by rw [eval, outcome_bind, first]; exact reached⟩
      | _ => cases link
    · refine ⟨max (n + 1) k + 1, ?_⟩
      rw [eval_pipe link]
      -- One allowance serves the first stage and the others.
      have larger : ExtendedBy (eval (n + 1) f v >>= fun w => through fs w k)
          (through (f :: fs) v (max (n + 1) k)) := by
        rw [through_cons]
        exact (eval_extendedBy (Nat.le_max_left ..) f v).bind fun w =>
          steady_through fs w (Nat.le_max_right ..)
      exact larger h _ ho

/-- A pipe follows a link before its first stage would, and then goes on in the same way. -/
theorem reaches_eval_pipe {result : Except EvalError Value} :
    Reaches (fun n => eval n (.pipe (f :: fs)) v) h result h' ↔
      Reaches (through (f :: fs) v) h result h' := by
  constructor
  · rintro ⟨n, ho⟩
    exact ⟨n, eval_pipe_extendedBy n v h _ ho⟩
  · rintro ⟨n, ho⟩
    rw [through_cons] at ho
    exact exists_eval_pipe n n v h ho

/-- Without an empty pipe, applying the stages of a filter is applying the filter. -/
theorem reaches_through_stages (nonempty : f.stages ≠ []) {result : Except EvalError Value} :
    Reaches (through f.stages v) h result h' ↔ Reaches (fun n => eval n f v) h result h' := by
  have single {f : Filter} : through [f] v = fun n => eval n f v := by
    funext n
    rw [through_cons]
    exact bind_pure _
  cases f with
  | pipe stages =>
    cases stages with
    | nil => exact absurd rfl nonempty
    | cons f fs => exact reaches_eval_pipe.symm
  | _ => simp only [Filter.stages, single]

end Evaluation

end TreeQuery
