import TreeQuery.Proofs.Evaluation.FailFast
import TreeQuery.Proofs.Query.Sequence

/-!
# Queries fail fast

The course of a query is to apply its filter and to settle the result. Whatever fails in it, in
however many calls around it, is the last thing that happens, and its failure is the result.

## Main definitions

* `Query.course` — the course of a query

## Main statements

* `Query.fail_fast` — a failure is the last thing that happens, and the result
-/

namespace TreeQuery

namespace Query

open Evaluation Run

/-- The course of a query. -/
def course (f : Filter) (v : Value) : Course Value := do
  Course.perform (.settle (← Course.perform (.eval f v)))

theorem run_course (f : Filter) (v : Value) (n : Nat) : (course f v).run n = run n f v := by
  simp [course, run]

theorem failsFast_course (f : Filter) (v : Value) : (course f v).FailsFast :=
  (Course.failsFast_perform _).bind fun _ => Course.failsFast_perform _

/-- Take any filter, any value and any host. Of the resolutions and pulls that the log shows for the
query, none failed but maybe the last one, and then its failure is the result. And whatever is
called in the course of the query, inside of whatever other calls: if it fails, be it that a link
cannot be resolved or that a stream gives a failure, its own or one that it hands on, then the query
comes to just that failure, and nothing happens any more that the log would show. So where the query
comes to a value, nothing has failed. -/
theorem fail_fast (f : Filter) (v : Value) (h : Host) :
    (∀ result h', Reaches (fun n => run n f v) h result h' → FailsLast h result h') ∧
    (∀ stack t g e g', (course f v).Nested h stack t g → Reaches t.run g (.error e) g' →
      ∃ h', Reaches (fun n => run n f v) h (.error e) h' ∧ h'.log = g'.log) ∧
    ∀ w h', Reaches (fun n => run n f v) h (.ok w) h' →
      ∀ stack t g e g', (course f v).Nested h stack t g → ¬ Reaches t.run g (.error e) g' := by
  have fast := failsFast_course f v
  have same : (course f v).run = fun n => run n f v := funext (run_course f v)
  have fails {stack t g e g'} (nested : (course f v).Nested h stack t g)
      (failed : Reaches t.run g (.error e) g') :
      ∃ h', Reaches (fun n => run n f v) h (.error e) h' ∧ h'.log = g'.log :=
    same ▸ nested.fails fast failed
  refine ⟨?_, fun _ _ _ _ _ => fails, fun w h' reached stack t g e g' nested failed => ?_⟩
  · rintro result h' ⟨n, ho⟩
    exact fast.candid (candid_run n) h result h' (run_course f v n ▸ ho)
  · obtain ⟨_, reached', -⟩ := fails nested failed
    cases (reached.unique reached' (steady_run f v)).1

/-- A host with a link that cannot be resolved and a stream of two elements. -/
def torn : Host where
  links := #[⟨"l", .failure "gone", []⟩]
  streams := #[⟨.source ⟨"s", true, .listed [.element (.integer 1), .element (.integer 2)], 0⟩,
    false⟩]
  names := []
  log := #[]

/-- In a group whose first member comes upon the link, the stream that the second one is about is
not pulled. -/
theorem fail_fast_group :
    ∃ h', Reaches (fun n => run n
        (.group [.pipe [.select (.key "a"), .length], .select (.key "b")])
        (.object [("a", .link ⟨0⟩), ("b", .stream ⟨0⟩)])) torn
        (.error (.linkFailure "gone")) h' ∧
      h'.log = #[.resolution ⟨0⟩ (some (.linkFailure "gone"))] := by
  let pipe : Filter := .pipe [.select (.key "a"), .length]
  let v : Value := .object [("a", .link ⟨0⟩), ("b", .stream ⟨0⟩)]
  let group : Filter := .group [pipe, .select (.key "b")]
  have whole : (course group v).Nested torn _ (.eval group v) torn := .start (.inl ⟨rfl, rfl⟩)
  have member : (course group v).Nested torn _ (.eval pipe v) torn :=
    whole.inside (.inl ⟨rfl, rfl⟩)
  have stage : (course group v).Nested torn _ (.eval .length (.link ⟨0⟩)) torn :=
    member.inside (.inr ⟨.ok (.link ⟨0⟩), torn, ⟨9, rfl⟩, .inl ⟨rfl, rfl⟩⟩)
  have link : (course group v).Nested torn _ (.resolution ⟨0⟩) torn :=
    stage.inside (.inl ⟨rfl, rfl⟩)
  exact (fail_fast group v torn).2.1 _ _ _ _ _ link ⟨0, rfl⟩

end Query

end TreeQuery
