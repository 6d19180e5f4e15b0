import TreeQuery.Query
import TreeQuery.Value.Document

/-!
# Queries on documents

The value of a document is closed, so a filter applied to it comes to an end, and its result is a
document again. Only the data can make it fail.

## Main definitions

* `Filter.applyToJson` — a filter applied to a document
* `Query.applyToJson` — a query applied to a document

## Main statements

* `Filter.quiet_document` — a filter comes to an end on a closed value
* `Filter.outcome_document` — every allowance that is large enough gives the same
-/

namespace TreeQuery

namespace Filter

/-- Apply a filter to a value and give the result as a document. -/
def document (allowance : Nat) (f : Filter) (input : Value) : Evaluation Json := do
  Evaluation.toJson allowance (← Query.run allowance f input)

/-- The allowance with which a filter comes to an end on a closed value. -/
def allowance (f : Filter) (input : Value) : Nat := f.size + input.depth + 1

/-- On a closed value the result is a document, or else the data make the filter fail. -/
theorem quiet_document {f : Filter} {input : Value} {h : Host} (closed : input.isClosed = true) :
    Run.Quiet (document (f.allowance input) f input) h (fun _ => True) EvalError.OfData := by
  have hn : f.allowance input = f.size + input.depth + 1 := rfl
  rw [document, Query.run, bind_assoc]
  refine (Evaluation.quiet_eval ⟨closed, Nat.le_refl _⟩ (by omega)).bind fun v hv => ?_
  rw [Evaluation.settle_of_closed hv (by omega), pure_bind]
  exact (Evaluation.quiet_toJson hv (by omega)).imp (fun _ _ => trivial) fun _ none => none.elim

/-- A larger allowance keeps every outcome. -/
theorem document_extendedBy {n m : Nat} (h : n ≤ m) (f : Filter) (input : Value) :
    Run.ExtendedBy (document n f input) (document m f input) :=
  ((Evaluation.eval_extendedBy h f input).bind fun v => Evaluation.settle_extendedBy h v).bind
    fun w => Evaluation.toJson_extendedBy h w

/-- Apply a filter to a document. -/
def applyToJson (f : Filter) (input : Json) : Except EvalError Json :=
  let v := Value.ofJson input
  let outcome := (f.document (f.allowance v) v).outcome .empty
  (outcome.get (quiet_document (Value.isClosed_ofJson input)).isSome).1

/-- Every allowance that is large enough gives the same, and the host has no part in it. -/
theorem outcome_document (f : Filter) (input : Json) {n : Nat}
    (h : f.allowance (.ofJson input) ≤ n) :
    (f.document n (.ofJson input)).outcome .empty = some (f.applyToJson input, .empty) := by
  have at_bound : (f.document (f.allowance (.ofJson input)) (.ofJson input)).outcome .empty =
      some (f.applyToJson input, .empty) := by
    rcases quiet_document (f := f) (h := .empty) (Value.isClosed_ofJson input) with
      ⟨j, ho, _⟩ | ⟨e, ho, _⟩
    · simp only [applyToJson, ho, Option.get_some]
    · simp only [applyToJson, ho, Option.get_some]
  exact document_extendedBy h f _ _ _ at_bound

end Filter

/-- Read a query, with a limit on mappings inside each other, and apply it to a document. -/
def Query.applyToJson (maxDepth : Nat) (text : String) (input : Json) : Except QueryError Json :=
  match Filter.parse maxDepth text with
  | .error e => .error (.parse e)
  | .ok f => (f.applyToJson input).mapError .evaluation

end TreeQuery
