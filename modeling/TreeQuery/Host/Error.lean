import TreeQuery.Filter.Printer
import TreeQuery.Value

/-!
# Why an evaluation fails

Missing members are no failures: they are null. What remains are operands that are no numbers,
positions outside of a sequence, links that cannot be resolved, and streams that are asked for an
element while they are producing one.
-/

namespace TreeQuery

/-- Why an evaluation fails. -/
inductive EvalError where
  /-- The operands of an operation are not both numbers. -/
  | notNumbers (operation : Filter) (left right : Kind)
  /-- A sequence has no element at that position. -/
  | indexOutOfRange (index length : Nat)
  /-- A link cannot be resolved, for a reason that its host gives. -/
  | linkFailure (reason : String)
  /-- A stream is asked for an element while it is producing one. -/
  | streamInUse

/-- A failure that is about the data at hand, not about a link or a stream. -/
def EvalError.OfData : EvalError → Prop
  | notNumbers .. => True
  | indexOutOfRange .. => True
  | linkFailure _ => False
  | streamInUse => False

/-- The wording of a failure. -/
def EvalError.message : EvalError → String
  | notNumbers operation left right =>
    "Type error: cannot apply \x60" ++ operation.print ++ "\x60 to " ++ left.name ++ " and " ++
      right.name
  | indexOutOfRange index length =>
    "Index error: index " ++ toString index ++ " is out of range for length " ++ toString length
  | linkFailure reason => "Link error: " ++ reason
  | streamInUse => "Stream error: stream is already being consumed"

end TreeQuery
