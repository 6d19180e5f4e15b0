import TreeQuery.Proofs.Evaluation.Stages
import TreeQuery.Proofs.Query.Sequence

/-!
# Paths as pipes

A path takes its steps one after the other. So does a pipe whose stages are single steps, but in a
way of its own: every stage is a filter, and looks for links before the step does so once more. On
whatever they are applied to, the two come to the same, with the same things happening on the way.

Whatever the filter, it follows links before anything else. So what two filters have in common on
values that are no links, they have in common on all values.

## Main statements

* `Evaluation.reaches_eval_of_noLink` — filters compared on values that are no links
* `Evaluation.reaches_steps_iff` — steps, and filters of one step
* `Query.path_is_pipe` — paths and pipes
-/

namespace TreeQuery

namespace Evaluation

open Run

variable {f g : Filter} {steps : List Selector} {v : Value} {h h' : Host}
  {result : Except EvalError Value}

/-- Every filter follows a link first. -/
theorem eval_link (n : Nat) (f : Filter) (id : LinkId) :
    eval (n + 1) f (.link id) = resolveOnce id >>= eval n f := by
  cases f <;> rfl

/-- What a filter comes to, another one does, if it does so on values that are no links. -/
theorem reaches_eval_of_noLink
    (noLink : ∀ v h, v.kind ≠ .link →
      Reaches (fun n => eval n f v) h result h' → Reaches (fun n => eval n g v) h result h')
    (reached : Reaches (fun n => eval n f v) h result h') :
    Reaches (fun n => eval n g v) h result h' := by
  obtain ⟨n, outcome⟩ := reached
  -- By induction on the allowance, which bounds how many links are followed.
  induction n generalizing v h with
  | zero => cases outcome
  | succ n ih =>
    by_cases link : v.kind = .link
    · cases v with
      | link id =>
        simp only [eval_link, outcome_bind] at outcome
        split at outcome
        · cases outcome
        · next w mid first =>
          obtain ⟨m, further⟩ := ih outcome
          exact ⟨m + 1, by simp only [eval_link, outcome_bind, first]; exact further⟩
        · next e mid first =>
          cases outcome
          exact ⟨1, by simp only [eval_link, outcome_bind, first]⟩
      | _ => cases link
    · exact noLink v h link ⟨n + 1, outcome⟩

/-- Steps one after the other are filters of one step, one after the other. -/
theorem reaches_steps_iff :
    Reaches (fun n => steps.foldlM (fun v s => select n s v) v) h result h' ↔
      Reaches (through (steps.map .select) v) h result h' := by
  induction steps generalizing v h with
  | nil => rfl
  | cons s steps ih =>
    have others (w : Value) : Steady fun n => steps.foldlM (fun v s => select n s v) w :=
      .foldlM (fun v s => steady_select s v) steps w
    have first : through ((s :: steps).map .select) v =
        fun n => eval n (.select s) v >>= fun w => through (steps.map .select) w n := by
      funext n
      rw [List.map_cons, through_cons]
    simp only [List.foldlM_cons]
    rw [first, reaches_bind (steady_select s v) others,
      reaches_bind (steady_eval (.select s) v) (steady_through _)]
    simp only [reaches_eval_select, ih]

/-- Without a link in front of them, a path and a pipe are what their steps and stages are. -/
theorem reaches_eval_path_of_noLink (noLink : v.kind ≠ .link) :
    Reaches (fun n => eval n (.path steps) v) h result h' ↔
      Reaches (fun n => steps.foldlM (fun v s => select n s v) v) h result h' := by
  rw [← reaches_succ (steady_eval (.path steps) v)]
  simp only [eval_path noLink]

theorem reaches_eval_pipe_of_noLink {stages : List Filter} (noLink : v.kind ≠ .link) :
    Reaches (fun n => eval n (.pipe stages) v) h result h' ↔
      Reaches (through stages v) h result h' := by
  rw [← reaches_succ (steady_eval (.pipe stages) v)]
  simp only [eval_pipe noLink]
  rfl

/-- Whatever it is applied to, a path comes to what the pipe of its steps comes to. -/
theorem reaches_eval_path_iff :
    Reaches (fun n => eval n (.path steps) v) h result h' ↔
      Reaches (fun n => eval n (.pipe (steps.map .select)) v) h result h' := by
  have same (v : Value) (h : Host) (noLink : v.kind ≠ .link) :
      Reaches (fun n => eval n (.path steps) v) h result h' ↔
        Reaches (fun n => eval n (.pipe (steps.map .select)) v) h result h' := by
    rw [reaches_eval_path_of_noLink noLink, reaches_eval_pipe_of_noLink noLink,
      reaches_steps_iff]
  constructor
  · exact reaches_eval_of_noLink fun v h noLink => (same v h noLink).mp
  · exact reaches_eval_of_noLink fun v h noLink => (same v h noLink).mpr

end Evaluation

namespace Filter

variable {f : Filter} {steps : List Selector} {maxDepth : Nat} {text : String}

/-! ### Trees of steps -/

theorem eq_of_same_path (same : f.same (.path steps)) : f = .path steps := by
  cases f with
  | path steps' =>
    rw [Filter.same, beq_iff_eq] at same
    rw [same]
  | _ => cases same

theorem eq_of_same_select {s : Selector} (same : f.same (.select s)) : f = .select s := by
  cases f with
  | select s' =>
    rw [Filter.same, beq_iff_eq] at same
    rw [same]
  | _ => cases same

theorem eq_of_sameAll_select {fs : List Filter} (same : sameAll fs (steps.map .select)) :
    fs = steps.map .select := by
  induction steps generalizing fs with
  | nil =>
    cases fs with
    | nil => rfl
    | cons f fs => cases same
  | cons s steps ih =>
    cases fs with
    | nil => cases same
    | cons f fs =>
      rw [List.map_cons, sameAll, Bool.and_eq_true] at same
      rw [List.map_cons, eq_of_same_select same.1, ih same.2]

theorem eq_of_same_pipe (same : f.same (.pipe (steps.map .select))) :
    f = .pipe (steps.map .select) := by
  cases f with
  | pipe stages => rw [eq_of_sameAll_select same]
  | _ => cases same

/-- Whether a text has a certain filter can be computed. -/
theorem exists_same_of_parse (maxDepth : Nat) (text : String) (g : Filter)
    (found : (parse maxDepth text).toOption.any (·.same g) = true) :
    ∃ f, parse maxDepth text = .ok f ∧ f.same g := by
  cases parsed : parse maxDepth text with
  | error e =>
    rw [parsed] at found
    cases found
  | ok f =>
    rw [parsed] at found
    exact ⟨f, rfl, found⟩

end Filter

namespace Query

open Evaluation Run

variable {steps : List Selector} {v : Value} {h h' : Host}

theorem reaches_run_path_iff {result : Except EvalError Value} :
    Reaches (fun n => run n (.path steps) v) h result h' ↔
      Reaches (fun n => run n (.pipe (steps.map .select)) v) h result h' := by
  unfold run
  rw [reaches_bind (steady_eval (.path steps) v) steady_settle,
    reaches_bind (steady_eval (.pipe (steps.map .select)) v) steady_settle]
  simp only [reaches_eval_path_iff]

/-- A path and the pipe of its steps come to the same value or to the same failure, whatever they
are applied to, and leave the same host, with the same log in it; and if one of them goes on for
ever, so does the other. So it is for any texts of the two. -/
theorem path_is_pipe (steps : List Selector) (v : Value) (h h' : Host) :
    (∀ result, Reaches (fun n => eval n (.path steps) v) h result h' ↔
      Reaches (fun n => eval n (.pipe (steps.map .select)) v) h result h') ∧
    ∀ maxDepth text text', Filter.parse maxDepth text = .ok (.path steps) →
      Filter.parse maxDepth text' = .ok (.pipe (steps.map .select)) →
      ∀ result, Reaches (fun n => apply n maxDepth text v) h result h' ↔
        Reaches (fun n => apply n maxDepth text' v) h result h' := by
  refine ⟨fun result => reaches_eval_path_iff, fun maxDepth text text' path pipe result => ?_⟩
  simp only [apply_eq_run path, apply_eq_run pipe, reaches_mapError, reaches_run_path_iff]

/-- A host with a link to an object, and with a stream of one array in that object. -/
def linkedMember : Host :=
  { Host.empty with
    links := #[⟨"l", .give (.object [("b", .stream ⟨0⟩)]), []⟩]
    streams := #[⟨.source ⟨"s", true, .listed [.element (.array [.integer 5])], 0⟩, false⟩] }

/-- The items of a stream in a member of what a link stands for: the link is followed once, and the
stream is drained. -/
theorem path_is_pipe_members :
    Filter.parse 64 ".a.b[0]" = .ok (.path [.key "a", .key "b", .index 0]) ∧
      Filter.parse 64 ".a | .b | [0]" =
        .ok (.pipe [.select (.key "a"), .select (.key "b"), .select (.index 0)]) ∧
      ∃ h', Reaches (fun n => apply n 64 ".a | .b | [0]" (.object [("a", .link ⟨0⟩)])) linkedMember
          (.ok (.array [.integer 5])) h' ∧
        h'.log = #[.resolution ⟨0⟩ none, .pull ⟨0⟩ 0 none, .exhausted ⟨0⟩] := by
  obtain ⟨f, path, same⟩ := Filter.exists_same_of_parse 64 ".a.b[0]"
    (.path [.key "a", .key "b", .index 0]) (by decide +kernel)
  obtain ⟨g, pipe, same'⟩ := Filter.exists_same_of_parse 64 ".a | .b | [0]"
    (.pipe ([.key "a", .key "b", .index 0].map .select)) (by decide +kernel)
  rw [Filter.eq_of_same_path same] at path
  rw [Filter.eq_of_same_pipe same'] at pipe
  have applied : Reaches (fun n => apply n 64 ".a.b[0]" (.object [("a", .link ⟨0⟩)])) linkedMember
      (.ok (.array [.integer 5]))
      { linkedMember with
        streams := #[⟨.source ⟨"s", true, .listed [], 1⟩, false⟩]
        log := #[.resolution ⟨0⟩ none, .pull ⟨0⟩ 0 none, .exhausted ⟨0⟩] } := by
    simp only [apply_eq_run path]
    exact ⟨8, rfl⟩
  obtain ⟨-, texts⟩ := path_is_pipe [.key "a", .key "b", .index 0] (.object [("a", .link ⟨0⟩)])
    linkedMember _
  exact ⟨path, pipe, _, (texts 64 _ _ path pipe _).mp applied, rfl⟩

end Query

end TreeQuery
