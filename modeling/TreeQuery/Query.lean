import TreeQuery.Evaluation
import TreeQuery.Filter.Parser

/-!
# Queries

A query is the text of a filter. It is read anew each time that it is applied, and what it gives is
settled: no stream is left in it.

## Main definitions

* `QueryError` — why a query fails
* `Query.apply` — a query applied to a value
-/

namespace TreeQuery

/-- Why a query fails. -/
inductive QueryError where
  /-- Its text is no filter. -/
  | parse (e : ParseError)
  /-- Its evaluation fails. -/
  | evaluation (e : EvalError)

/-- The wording of a failure. -/
def QueryError.message : QueryError → String
  | parse e => "Parse error: " ++ e.message
  | evaluation e => "Evaluation error: " ++ e.message

namespace Query

/-- Apply a filter to a value and settle the result. -/
def run (allowance : Nat) (f : Filter) (input : Value) : Evaluation Value := do
  Evaluation.settle allowance (← Evaluation.eval allowance f input)

/-- Read a query, with a limit on mappings inside each other, and apply it to a value. -/
def apply (allowance maxDepth : Nat) (text : String) (input : Value) : Run Host QueryError Value :=
  match Filter.parse maxDepth text with
  | .error e => throw (.parse e)
  | .ok f => (run allowance f input).mapError .evaluation

end Query

end TreeQuery
