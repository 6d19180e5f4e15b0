import TreeQuery.Filter.Production

/-!
# The allowance of a production

As with evaluations, the allowance decides only whether a production comes to an end, and a larger one
keeps every outcome.

## Main statements

* `Parsing.keeps_all` — one more nested call keeps the outcomes of the productions
* `Parsing.program_extendedBy` — a larger allowance keeps the outcomes of a whole program
-/

namespace TreeQuery

namespace Parsing

open Run

theorem bracket_extendedBy_succ (n : Nat) (b : Bracket) :
    ExtendedBy (bracket n b) (bracket (n + 1) b) := by
  induction n generalizing b with
  | zero => exact cutOff_extendedBy _
  | succ n ih =>
    unfold bracket
    refine (ExtendedBy.refl _).bind fun t => ?_
    split
    · exact (ExtendedBy.refl _).bind fun i => ih _
    · exact (ExtendedBy.refl _).bind fun i => ih _
    · exact ih _
    · exact .refl _
    · exact .refl _

theorem steps_extendedBy_succ (n : Nat) : ExtendedBy (steps n) (steps (n + 1)) := by
  induction n with
  | zero => exact cutOff_extendedBy _
  | succ n ih =>
    unfold steps
    refine (ExtendedBy.refl _).bind fun t => ?_
    split
    · refine (ExtendedBy.refl _).bind fun name => ?_
      split
      · exact ih.bind fun _ => .refl _
      · exact (ExtendedBy.refl _).bind fun _ => ih
    · exact (bracket_extendedBy_succ n _).bind fun _ => ih.bind fun _ => .refl _
    · exact .refl _

/-- One more nested call keeps every outcome. -/
structure Keeps (n : Nat) : Prop where
  chain : ExtendedBy (chain n) (chain (n + 1))
  stages : ExtendedBy (stages n) (stages (n + 1))
  sum : ExtendedBy (sum n) (sum (n + 1))
  summands : ∀ left, ExtendedBy (summands n left) (summands (n + 1) left)
  product : ExtendedBy (product n) (product (n + 1))
  factors : ∀ left, ExtendedBy (factors n left) (factors (n + 1) left)
  operand : ExtendedBy (operand n) (operand (n + 1))
  mapping : ExtendedBy (mapping n) (mapping (n + 1))
  entries : ExtendedBy (entries n) (entries (n + 1))

variable {n : Nat}

theorem Keeps.chain_succ (ih : Keeps n) :
    ExtendedBy (Parsing.chain (n + 1)) (Parsing.chain (n + 2)) := by
  unfold Parsing.chain
  exact ih.sum.bind fun _ => ih.stages.bind fun _ => .refl _

theorem Keeps.stages_succ (ih : Keeps n) :
    ExtendedBy (Parsing.stages (n + 1)) (Parsing.stages (n + 2)) := by
  unfold Parsing.stages
  refine (ExtendedBy.refl _).bind fun t => ?_
  split
  · exact ih.sum.bind fun _ => ih.stages.bind fun _ => .refl _
  · exact .refl _

theorem Keeps.sum_succ (ih : Keeps n) :
    ExtendedBy (Parsing.sum (n + 1)) (Parsing.sum (n + 2)) := by
  unfold Parsing.sum
  exact ih.product.bind ih.summands

theorem Keeps.summands_succ (ih : Keeps n) (left : Filter) :
    ExtendedBy (Parsing.summands (n + 1) left) (Parsing.summands (n + 2) left) := by
  unfold Parsing.summands
  refine (ExtendedBy.refl _).bind fun t => ?_
  split
  · exact ih.product.bind fun _ => ih.summands _
  · exact .refl _
  · exact .refl _
  · exact .refl _

theorem Keeps.product_succ (ih : Keeps n) :
    ExtendedBy (Parsing.product (n + 1)) (Parsing.product (n + 2)) := by
  unfold Parsing.product
  exact ih.operand.bind ih.factors

theorem Keeps.factors_succ (ih : Keeps n) (left : Filter) :
    ExtendedBy (Parsing.factors (n + 1) left) (Parsing.factors (n + 2) left) := by
  unfold Parsing.factors
  refine (ExtendedBy.refl _).bind fun t => ?_
  split
  · exact ih.operand.bind fun _ => ih.factors _
  · exact .refl _

theorem Keeps.operand_succ (ih : Keeps n) :
    ExtendedBy (Parsing.operand (n + 1)) (Parsing.operand (n + 2)) := by
  unfold Parsing.operand
  have path (t : Token) :
      ExtendedBy (unread t >>= fun _ => steps n >>= fun s => pure (Filter.ofSteps s))
        (unread t >>= fun _ => steps (n + 1) >>= fun s => pure (Filter.ofSteps s)) :=
    (ExtendedBy.refl _).bind fun _ => (steps_extendedBy_succ n).bind fun _ => .refl _
  refine (ExtendedBy.refl _).bind fun t => ?_
  split
  · exact path t
  · exact path t
  · exact .refl _
  · exact .refl _
  · exact .refl _
  · exact .refl _
  · exact (ExtendedBy.refl _).bind fun _ => ih.mapping
  · exact .refl _

theorem Keeps.mapping_succ (ih : Keeps n) :
    ExtendedBy (Parsing.mapping (n + 1)) (Parsing.mapping (n + 2)) := by
  unfold Parsing.mapping
  refine (ExtendedBy.refl _).bind fun first => ?_
  split
  · exact .refl _
  · exact (ExtendedBy.refl _).bind fun _ => ih.entries.bind fun _ => .refl _

theorem Keeps.entries_succ (ih : Keeps n) :
    ExtendedBy (Parsing.entries (n + 1)) (Parsing.entries (n + 2)) := by
  unfold Parsing.entries
  refine (ExtendedBy.refl _).bind fun name => ?_
  split
  · refine (ExtendedBy.refl _).bind fun colon => ?_
    split
    · refine ih.chain.bind fun _ => (ExtendedBy.refl _).bind fun t => ?_
      split
      · exact ih.entries.bind fun _ => .refl _
      · exact .refl _
      · exact .refl _
    · exact .refl _
  · exact .refl _

/-- One more nested call keeps every outcome. -/
theorem keeps_all (n : Nat) : Keeps n := by
  induction n with
  | zero => constructor <;> intros <;> exact cutOff_extendedBy _
  | succ n ih =>
    exact {
      chain := ih.chain_succ
      stages := ih.stages_succ
      sum := ih.sum_succ
      summands := ih.summands_succ
      product := ih.product_succ
      factors := ih.factors_succ
      operand := ih.operand_succ
      mapping := ih.mapping_succ
      entries := ih.entries_succ }

theorem chains_extendedBy_succ (n : Nat) : ExtendedBy (chains n) (chains (n + 1)) := by
  induction n with
  | zero => exact cutOff_extendedBy _
  | succ n ih =>
    unfold chains
    refine (ExtendedBy.refl _).bind fun t => ?_
    split
    · exact (keeps_all n).chain.bind fun _ => ih.bind fun _ => .refl _
    · exact .refl _
    · exact .refl _

/-- A larger allowance keeps the outcomes of a whole program. -/
theorem program_extendedBy {n m : Nat} (h : n ≤ m) : ExtendedBy (program n) (program m) := by
  induction h with
  | refl => exact .refl _
  | step _ ih =>
    exact ih.trans ((keeps_all _).chain.bind fun _ => (chains_extendedBy_succ _).bind fun _ => .refl _)

end Parsing

end TreeQuery
