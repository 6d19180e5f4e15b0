import TreeQuery.Decimal.Scaled
import TreeQuery.Filter

/-!
# Arithmetic

Sums and products are taken in decimal where that is exact: when both operands stand for a decimal
of 96 bits and can be had back from it. So `0.1 + 0.2` is `0.3`. Otherwise binary arithmetic
decides.

## Main definitions

* `Operator.decimal?` — the result in decimal
* `Operator.apply` — the result
-/

namespace TreeQuery

/-- The decimal that a double stands for, when the double can be had back from it. -/
def Scaled.recoverable? (x : Float) : Option Scaled :=
  (Scaled.ofFloat? x).filter fun d => d.toFloat == x

namespace Operator

/-- The operation on scaled decimals, where the result has one. -/
def onScaled? : Operator → Scaled → Scaled → Option Scaled
  | multiply => Scaled.mul?
  | add => Scaled.add?

/-- The operation on doubles. -/
def onFloats : Operator → Float → Float → Float
  | multiply, a, b => a * b
  | add, a, b => a + b

/-- The result in decimal, when both operands stand for a decimal and so does the result. -/
def decimal? (op : Operator) (a b : Float) : Option Float := do
  let x ← Scaled.recoverable? a
  let y ← Scaled.recoverable? b
  let r ← op.onScaled? x y
  return r.toFloat

/-- The operation on two numbers: in decimal where that is exact, in binary elsewhere. -/
def apply (op : Operator) (a b : Float) : Float :=
  (op.decimal? a b).getD (op.onFloats a b)

end Operator

end TreeQuery
