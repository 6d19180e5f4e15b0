import TreeQuery.Filter.Allowance
import TreeQuery.Filter.Termination

/-!
# Parsing filters

The entry points: a whole program, as its chains or as one filter. They give back the parser as
well, which can be called again, after an error too.

## Main definitions

* `Parser.program`, `Parser.filter` — a whole program, and the parser after it
* `Filter.parse` — a whole text as one filter

## Main statements

* `Parser.outcome_program` — every allowance that is large enough gives the same
-/

namespace TreeQuery

namespace Parser

/-- Enough nested calls for what is left of the text. -/
def allowance (p : Parser) : Nat := 4 * p.pending + 4

/-- Read a whole program, up to the end of the text: its first chain and the others. -/
def program (p : Parser) : Except ParseError (Filter × List Filter) × Parser :=
  ((Parsing.program p.allowance).outcome p).get
    (Parsing.program_ends p p.allowance (Nat.le_refl _)).isSome

/-- Every allowance that is large enough gives the same. -/
theorem outcome_program (p : Parser) {n : Nat} (h : p.allowance ≤ n) :
    (Parsing.program n).outcome p = some p.program :=
  Parsing.program_extendedBy h p _ (Option.some_get _).symm

/-- Read a whole program as one filter. -/
def filter (p : Parser) : Except ParseError Filter × Parser :=
  (p.program.1.map fun (first, rest) => .ofChains first rest, p.program.2)

end Parser

/-- Read a text as one filter, with a limit on mappings inside each other. -/
def Filter.parse (maxDepth : Nat) (text : String) : Except ParseError Filter :=
  (Parser.ofText maxDepth text).filter.1

end TreeQuery
