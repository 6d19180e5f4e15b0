import TreeQuery.Token.Scanner

/-!
# Why a text is no filter

Each cause names the place where it was found, and there is one wording for each.

## Main definitions

* `Expectation` — what would have been in order
* `ParseError` — the causes, with `ParseError.position` and `ParseError.message`
-/

namespace TreeQuery

/-- What would have been in order where something else stands. -/
inductive Expectation where
  /-- More filters, or the end of the program. -/
  | separator
  /-- A filter. -/
  | filter
  /-- The number that a sign belongs to. -/
  | signedNumber
  /-- Something that may stand between brackets. -/
  | bracketItem
  /-- The name of an entry. -/
  | entryName
  /-- The colon after the name of an entry. -/
  | colon
  /-- The next entry, or the end of the mapping. -/
  | entryEnd
  deriving DecidableEq, Repr

/-- How a message names what would have been in order. -/
def Expectation.describe : Expectation → String
  | separator => "',', '|' or end of input"
  | filter => "a filter"
  | signedNumber => "a number after '-'"
  | bracketItem => "an index, ':' or ']'"
  | entryName => "a mapping key"
  | colon => "':'"
  | entryEnd => "',' or '\x7d'"

/-- Why a text is no filter. -/
inductive ParseError where
  /-- A quote is never closed. -/
  | unclosedQuote (fault : UnclosedQuote)
  /-- A token stands where it cannot. -/
  | unexpectedToken (found : Token) (expected : Expectation)
  /-- The text ends too early. -/
  | unexpectedEnd (expected : Expectation) (position : Position)
  /-- A number between brackets is no position: it has a point, or is too large. -/
  | invalidIndex (text : String) (position : Position)
  /-- A number token has no value. -/
  | invalidNumber (text : String) (position : Position)
  /-- An operator that has a token but no meaning. -/
  | unsupportedOperator (text : String) (position : Position)
  /-- A mapping stands inside too many others. -/
  | tooDeep (limit : Nat) (position : Position)
  deriving DecidableEq, Repr

namespace ParseError

/-- Where the cause was found. -/
def position : ParseError → Position
  | unclosedQuote fault => fault.position
  | unexpectedToken found _ => found.position
  | unexpectedEnd _ position => position
  | invalidIndex _ position => position
  | invalidNumber _ position => position
  | unsupportedOperator _ position => position
  | tooDeep _ position => position

/-- The wording of the cause. -/
def message : ParseError → String
  | unclosedQuote fault => fault.message
  | unexpectedToken found expected =>
    "unexpected " ++ found.describe ++ " at " ++ found.position.describe ++ ", expected " ++
      expected.describe
  | unexpectedEnd expected position =>
    "unexpected end of input at " ++ position.describe ++ ", expected " ++ expected.describe
  | invalidIndex text position =>
    "invalid index '" ++ text ++ "' at " ++ position.describe ++ ": expected a non-negative integer"
  | invalidNumber text position => "invalid number '" ++ text ++ "' at " ++ position.describe
  | unsupportedOperator text position =>
    "unsupported operator '" ++ text ++ "' at " ++ position.describe
  | tooDeep limit position =>
    "mappings nested deeper than " ++ toString limit ++ " levels at " ++ position.describe

/-- The cause for a token that stands where something else was expected. -/
def ofToken (found : Token) (expected : Expectation) : ParseError :=
  if found.kind = .finish then unexpectedEnd expected found.position
  else unexpectedToken found expected

end ParseError

end TreeQuery
