import TreeQuery.Command.Check
import TreeQuery.Proofs.Query.Sequence
import TreeQuery.Proofs.Value.JsonShaped

/-!
# Queries on closed data

A query on a closed value has nothing to ask of the host: it follows no link, takes from no stream
and leaves the host as it was, log included. It always comes to an end, with a closed value or with
a failure that is about the data alone. No stream is ever in the result, so that settling it has
nothing to do.

## Main statements

* `Evaluation.exists_reaches_eval` — a filter on a closed value
* `Query.reaches_run_of_isClosed` — settling has nothing to do
* `Query.closed_stays_closed` — queries on closed values, and checks against documents
-/

namespace TreeQuery

open Run

namespace Evaluation

variable {v : Value} {h h' : Host}

/-- A filter on a closed value comes to an end and leaves the host as it was. Its result is closed,
and its failure is about the data. -/
theorem exists_reaches_eval (closed : v.isClosed = true) (f : Filter) (h : Host) :
    ∃ result, Reaches (fun n => eval n f v) h result h ∧
      (∀ e, result = .error e → e.OfData) ∧ ∀ w, result = .ok w → w.isClosed = true := by
  rcases quiet_eval (h := h) (f := f) ⟨closed, Nat.le_refl _⟩ (Nat.lt_succ_self _) with
    ⟨w, ho, closed', -⟩ | ⟨e, ho, ofData⟩
  · exact ⟨.ok w, ⟨_, ho⟩, nofun, by rintro _ ⟨⟩; exact closed'⟩
  · exact ⟨.error e, ⟨_, ho⟩, by rintro _ ⟨⟩; exact ofData, nofun⟩

/-- Settling a closed value gives that value, and nothing happens. -/
theorem reaches_settle_of_isClosed (closed : v.isClosed = true) {result : Except EvalError Value} :
    Reaches (fun n => settle n v) h result h' ↔ result = .ok v ∧ h' = h := by
  have settles : Reaches (fun n => settle n v) h (.ok v) h :=
    ⟨v.depth + 1, congrArg (outcome · h)
      (settle_of_closed ⟨closed, Nat.le_refl _⟩ (Nat.lt_succ_self _))⟩
  constructor
  · exact fun reached => reached.unique settles (steady_settle v)
  · rintro ⟨rfl, rfl⟩
    exact settles

/-- A closed value has a document, and nothing has to be asked for it. -/
theorem exists_reaches_toJson (closed : v.isClosed = true) (h : Host) :
    ∃ j, Reaches (fun n => toJson n v) h (.ok j) h := by
  rcases quiet_toJson (h := h) ⟨closed, Nat.le_refl _⟩ (Nat.lt_succ_self _) with
    ⟨j, ho, -⟩ | ⟨e, -, none⟩
  · exact ⟨j, _, ho⟩
  · exact none.elim

end Evaluation

namespace Query

open Evaluation

variable {f : Filter} {v : Value} {h h' : Host}

/-- On a closed value, running a filter is evaluating it: its result is settled already. -/
theorem reaches_run_of_isClosed (closed : v.isClosed = true) {result : Except EvalError Value} :
    Reaches (fun n => run n f v) h result h' ↔ Reaches (fun n => eval n f v) h result h' := by
  obtain ⟨given, evaluates, -, closed'⟩ := exists_reaches_eval closed f h
  unfold run
  rw [reaches_bind (steady_eval f v) steady_settle]
  constructor
  · rintro (⟨e, fails, rfl⟩ | ⟨w, mid, gives, settles⟩)
    · exact fails
    · obtain ⟨rfl, -⟩ := evaluates.unique gives (steady_eval f v)
      obtain ⟨rfl, rfl⟩ := (reaches_settle_of_isClosed (closed' w rfl)).mp settles
      exact gives
  · intro reached
    obtain ⟨rfl, -⟩ := evaluates.unique reached (steady_eval f v)
    cases given with
    | error e => exact .inl ⟨e, reached, rfl⟩
    | ok w =>
      exact .inr ⟨w, h', reached, (reaches_settle_of_isClosed (closed' w rfl)).mpr ⟨rfl, rfl⟩⟩

/-- A query on a closed value is its filter, evaluated. -/
theorem reaches_apply_of_isClosed {maxDepth : Nat} {text : String}
    (parsed : Filter.parse maxDepth text = .ok f) (closed : v.isClosed = true)
    {result : Except QueryError Value} :
    Reaches (fun n => apply n maxDepth text v) h result h' ↔
      ∃ result', Reaches (fun n => eval n f v) h result' h' ∧
        result = result'.mapError .evaluation := by
  simp only [apply_eq_run parsed, reaches_mapError, reaches_run_of_isClosed closed]

end Query

/-- A failure about the data is one of operands or of a position. -/
theorem EvalError.OfData.cases {e : EvalError} (ofData : e.OfData) :
    (∃ operation a b, e = .notNumbers operation a b) ∨ ∃ i length, e = .indexOutOfRange i length := by
  cases e with
  | notNumbers operation a b => exact .inl ⟨operation, a, b, rfl⟩
  | indexOutOfRange i length => exact .inr ⟨i, length, rfl⟩
  | linkFailure _ => exact ofData.elim
  | streamInUse => exact ofData.elim

/-- A document makes a filter fail only for reasons of its own data. -/
theorem Filter.ofData_of_applyToJson {f : Filter} {input : Json} {e : EvalError}
    (fails : f.applyToJson input = .error e) : e.OfData := by
  have same := f.outcome_document input (Nat.le_refl _)
  rw [fails] at same
  rcases quiet_document (f := f) (h := .empty) (Value.isClosed_ofJson input) with
    ⟨j, ho, -⟩ | ⟨e', ho, ofData⟩
  · cases ho.symm.trans same
  · cases ho.symm.trans same
    exact ofData

/-- An evaluation that fails in a check fails for reasons of the data. -/
theorem CheckRequest.ofData_of_run {r : CheckRequest} {e : EvalError}
    (fails : r.run = .error (.query (.evaluation e))) : e.OfData := by
  -- Nothing is evaluated unless there is input, it is a document and the expression is a filter.
  unfold run at fails
  split at fails
  · split at fails <;> cases fails
  · split at fails
    · cases fails
    · split at fails
      · cases fails
      · next input _ =>
        unfold Query.applyToJson at fails
        cases parsed : Filter.parse r.maxDepth r.expression with
        | error e' =>
          rw [parsed] at fails
          cases fails
        | ok f =>
          rw [parsed] at fails
          cases applied : f.applyToJson input with
          | ok j =>
            simp only [applied] at fails
            cases fails
          | error e' =>
            simp only [applied] at fails
            cases fails
            exact Filter.ofData_of_applyToJson applied

namespace Query

open Evaluation

/-- On a closed value, a query fails as its text is no filter, or it comes to what its filter
evaluates to. Either way the host is left as it was, its log included, and no link and no stream is
to blame for a failure. The result is closed and has a document. It keeps to the shapes of JSON, as
the value of a document does. So a check that comes to evaluate its query at all, gives a document or
fails for an operand that is no number or a position that is out of range. -/
theorem closed_stays_closed :
    (∀ (maxDepth : Nat) (text : String) (v : Value) (h : Host), v.isClosed = true →
      (∃ e, Filter.parse maxDepth text = .error e ∧
        Reaches (fun n => apply n maxDepth text v) h (.error (.parse e)) h) ∨
      ∃ f result, Filter.parse maxDepth text = .ok f ∧
        Reaches (fun n => eval n f v) h result h ∧
        Reaches (fun n => apply n maxDepth text v) h (result.mapError .evaluation) h ∧
        (∀ e, result = .error e →
          (∃ operation a b, e = .notNumbers operation a b) ∨
            ∃ i length, e = .indexOutOfRange i length) ∧
        ∀ w, result = .ok w → w.isClosed = true ∧ (v.JsonShaped → w.JsonShaped) ∧
          ∃ j, Reaches (fun n => toJson n w) h (.ok j) h) ∧
    (∀ j, (Value.ofJson j).isClosed = true ∧ (Value.ofJson j).JsonShaped) ∧
    ∀ (r : CheckRequest) (e : EvalError), r.run = .error (.query (.evaluation e)) →
      (∃ operation a b, e = .notNumbers operation a b) ∨
        ∃ i length, e = .indexOutOfRange i length := by
  refine ⟨fun maxDepth text v h closed => ?_,
    fun j => ⟨Value.isClosed_ofJson j, Value.jsonShaped_ofJson j⟩,
    fun r e fails => (CheckRequest.ofData_of_run fails).cases⟩
  cases parsed : Filter.parse maxDepth text with
  | error e =>
    exact .inl ⟨e, rfl, 0, congrArg (outcome · h) (apply_eq_throw parsed 0 v)⟩
  | ok f =>
    obtain ⟨result, evaluates, ofData, closed'⟩ := exists_reaches_eval closed f h
    refine .inr ⟨f, result, rfl, evaluates,
      (reaches_apply_of_isClosed parsed closed).mpr ⟨result, evaluates, rfl⟩,
      fun e same => (ofData e same).cases, ?_⟩
    rintro w rfl
    refine ⟨closed' w rfl, fun shaped => ?_, exists_reaches_toJson (closed' w rfl) h⟩
    obtain ⟨n, ho⟩ := evaluates
    exact eval_meets_jsonShaped f shaped _ _ ho

/-- The first item of an array, which is a document, and a position beyond its end. -/
theorem closed_stays_closed_item :
    (Value.array [.boolean true]).isClosed = true ∧ (Value.array []).isClosed = true ∧
      (∀ h, Reaches (fun n => apply n 64 "[0]" (.array [.boolean true])) h (.ok (.boolean true)) h ∧
        Reaches (fun n => apply n 64 "[0]" (.array [])) h
          (.error (.evaluation (.indexOutOfRange 0 0))) h) ∧
      (Value.boolean true).JsonShaped := by
  have parsed : Filter.parse 64 "[0]" = .ok (.select (.index 0)) :=
    (Parser.isChain_select_of_same (by decide +kernel)).parse_eq
  -- What the filter evaluates to is what the query comes to.
  have gives {v : Value} {h : Host} {result : Except EvalError Value} (closed : v.isClosed = true)
      (evaluates : Reaches (fun n => eval n (.select (.index 0)) v) h result h) :
      Reaches (fun n => apply n 64 "[0]" v) h (result.mapError .evaluation) h ∧
        ∀ w, result = .ok w → v.JsonShaped → w.JsonShaped := by
    rcases closed_stays_closed.1 64 "[0]" v h closed with
      ⟨e, failed, -⟩ | ⟨f, result', parsed', evaluates', applies, -, good⟩
    · cases parsed.symm.trans failed
    · cases parsed.symm.trans parsed'
      obtain ⟨rfl, -⟩ := evaluates.unique evaluates' (steady_eval _ v)
      exact ⟨applies, fun w same => (good w same).2.1⟩
  have found (h : Host) : Reaches (fun n => eval n (.select (.index 0)) (.array [.boolean true])) h
      (.ok (.boolean true)) h := ⟨2, rfl⟩
  have beyond (h : Host) : Reaches (fun n => eval n (.select (.index 0)) (.array [])) h
      (.error (.indexOutOfRange 0 0)) h := ⟨2, rfl⟩
  have shaped : (Value.array [.boolean true]).JsonShaped :=
    .array fun v mem => by
      rw [List.mem_singleton.mp mem]
      exact .boolean true
  refine ⟨rfl, rfl, fun h => ⟨(gives rfl (found h)).1, (gives rfl (beyond h)).1⟩, ?_⟩
  exact (gives rfl (found .empty)).2 _ rfl shaped

end Query

end TreeQuery
