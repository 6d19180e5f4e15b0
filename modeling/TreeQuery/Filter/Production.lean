import TreeQuery.Decimal.Basic
import TreeQuery.Filter
import TreeQuery.Filter.ParseError
import TreeQuery.Run

/-!
# The productions of filters

A parser takes tokens from a scanner and can hand one back. Programs are filters separated by
commas; a filter is a pipe of stages; a stage is a sum of products of operands; an operand is a path
of selectors, a literal, or a mapping whose entries hold pipes again.

Mappings may stand inside each other up to a limit. The parser counts a mapping when it opens and
takes it off the count when it closes, so a parser that stopped with an error inside a mapping goes
on counting it when it is called again.

The productions carry an allowance of nested calls.

## Main definitions

* `Parser`, `Parser.ofText` — parsers
* `Parsing` — runs over a parser, and the productions
-/

namespace TreeQuery

/-- How deep mappings may stand inside each other where nothing else is said. -/
def defaultMaxDepth : Nat := 64

/-- Positions between brackets stay below this bound. -/
def indexBound : Nat := Nat.pow 2 64

/-- A source of tokens with room for one that was handed back, and a count of open mappings. -/
structure Parser where
  /-- Where the tokens come from. -/
  scanner : Scanner
  /-- A token that was taken and handed back. -/
  handedBack : Option Token
  /-- How many mappings are open. -/
  depth : Nat
  /-- How many mappings may be open at a time. -/
  maxDepth : Nat
  deriving DecidableEq, Repr

/-- A parser at the beginning of a text. -/
def Parser.ofText (maxDepth : Nat) (text : String) : Parser :=
  ⟨.ofText text, none, 0, maxDepth⟩

/-- Runs over a parser. -/
abbrev Parsing : Type → Type := Run Parser ParseError

/-- The stages of a pipe as one filter: a stage on its own is no pipe. -/
def Filter.ofStages (first : Filter) : List Filter → Filter
  | [] => first
  | rest => .pipe (first :: rest)

/-- The chains of a program as one filter: a chain on its own is no group. -/
def Filter.ofChains (first : Filter) : List Filter → Filter
  | [] => first
  | rest => .group (first :: rest)

/-- Selectors as one filter: none of them is the identity, and one on its own is no path. -/
def Filter.ofSteps : List Selector → Filter
  | [] => .select .identity
  | [step] => .select step
  | steps => .path steps

/-- What stands between brackets: two positions, either of which may be missing, and whether a colon
was among them. -/
structure Bracket where
  start : Option Nat
  stop : Option Nat
  colon : Bool
  deriving DecidableEq, Repr

/-- The selector for what stands between brackets: a position, everything, or a stretch. -/
def Bracket.toSelector : Bracket → Selector
  | ⟨some i, _, false⟩ => .index i
  | ⟨none, none, _⟩ => .slice .everything
  | ⟨start, stop, _⟩ => .slice (.between (start.getD 0) stop)

namespace Parsing

/-! ### Tokens -/

/-- Take a token: the one handed back, or the next one of the scanner. -/
def next : Parsing Token :=
  .ofOutcome fun p =>
    match p.handedBack with
    | some t => some (.ok t, { p with handedBack := none })
    | none =>
      match p.scanner.next with
      | (.ok t, scanner) => some (.ok t, { p with scanner })
      | (.error fault, scanner) => some (.error (.unclosedQuote fault), { p with scanner })

/-- Hand a token back. There is room for one only: a second one has no outcome. -/
def unread (t : Token) : Parsing Unit :=
  .ofOutcome fun p =>
    match p.handedBack with
    | none => some (.ok (), { p with handedBack := some t })
    | some _ => none

/-- Refuse a token. -/
def refuse {α : Type} (found : Token) (expected : Expectation) : Parsing α :=
  throw (.ofToken found expected)

/-- The value of a number token. -/
def numberOf (t : Token) : Parsing Float :=
  match Decimal.ofNumeral? t.text.toList with
  | some d => pure d.toFloat
  | none => throw (.invalidNumber t.text t.position)

/-- The position that a number token stands for: digits alone, and not too many. -/
def indexOf (t : Token) : Parsing Nat :=
  let digits := t.text.toList
  let i := Nat.ofDigitChars 10 digits 0
  if !digits.isEmpty && digits.all Char.isDigit && i < indexBound then pure i
  else throw (.invalidIndex t.text t.position)

/-! ### Selectors -/

/-- The rest of a pair of brackets, up to the closing one. -/
def bracket : (allowance : Nat) → Bracket → Parsing Selector
  | 0, _ => .cutOff
  | n + 1, b => do
    let t ← next
    match t.kind, b.colon, b.start, b.stop with
    | .number, false, none, _ => bracket n { b with start := some (← indexOf t) }
    | .number, true, _, none => bracket n { b with stop := some (← indexOf t) }
    | .colon, false, _, _ => bracket n { b with colon := true }
    | .rightBracket, _, _, _ => pure b.toSelector
    | _, _, _, _ => refuse t .bracketItem

/-- The selectors of a path, up to the first token that belongs to none. A dot without a name after
it only separates. -/
def steps : (allowance : Nat) → Parsing (List Selector)
  | 0 => .cutOff
  | n + 1 => do
    let t ← next
    match t.kind with
    | .dot =>
      let name ← next
      if name.kind.isName then return .key name.text :: (← steps n)
      else
        unread name
        steps n
    | .leftBracket =>
      let selector ← bracket n ⟨none, none, false⟩
      return selector :: (← steps n)
    | _ =>
      unread t
      return []

/-! ### Filters -/

/-- Count a mapping that opens at `position`. -/
def enter (position : Position) : Parsing Unit :=
  .ofOutcome fun p =>
    let p' := { p with depth := p.depth + 1 }
    if p'.depth > p'.maxDepth then some (.error (.tooDeep p.maxDepth position), p')
    else some (.ok (), p')

/-- Take a closed mapping off the count. -/
def leave : Parsing Unit :=
  .change fun p => { p with depth := p.depth - 1 }

mutual

/-- Stages joined by bars. -/
def chain : (allowance : Nat) → Parsing Filter
  | 0 => .cutOff
  | n + 1 => do
    let first ← sum n
    let rest ← stages n
    return .ofStages first rest

/-- Further stages, each after a bar. -/
def stages : (allowance : Nat) → Parsing (List Filter)
  | 0 => .cutOff
  | n + 1 => do
    let t ← next
    if t.kind = .pipe then
      let stage ← sum n
      return stage :: (← stages n)
    else
      unread t
      return []

/-- Products joined by plus signs. -/
def sum : (allowance : Nat) → Parsing Filter
  | 0 => .cutOff
  | n + 1 => do
    let left ← product n
    summands n left

/-- Further summands, added to what stands on their left. -/
def summands : (allowance : Nat) → Filter → Parsing Filter
  | 0, _ => .cutOff
  | n + 1, left => do
    let t ← next
    match t.kind with
    | .plus =>
      let right ← product n
      summands n (.binary .add left right)
    | .minus | .slash => throw (.unsupportedOperator t.text t.position)
    | _ =>
      unread t
      return left

/-- Operands joined by stars. -/
def product : (allowance : Nat) → Parsing Filter
  | 0 => .cutOff
  | n + 1 => do
    let left ← operand n
    factors n left

/-- Further factors, multiplied with what stands on their left. -/
def factors : (allowance : Nat) → Filter → Parsing Filter
  | 0, _ => .cutOff
  | n + 1, left => do
    let t ← next
    if t.kind = .star then
      let right ← operand n
      factors n (.binary .multiply left right)
    else
      unread t
      return left

/-- A path, a literal or a mapping. A sign is part of a number and of nothing else. -/
def operand : (allowance : Nat) → Parsing Filter
  | 0 => .cutOff
  | n + 1 => do
    let t ← next
    match t.kind with
    | .dot | .leftBracket =>
      unread t
      return .ofSteps (← steps n)
    | .number => return .number (← numberOf t)
    | .minus =>
      let number ← next
      if number.kind = .number then return .number (-(← numberOf number))
      else refuse number .signedNumber
    | .quoted => return .text t.text
    | .text => return if t.text = "length" then .length else .text t.text
    | .leftBrace =>
      enter t.position
      mapping n
    | _ => refuse t .filter

/-- The rest of a mapping, its opening brace taken. -/
def mapping : (allowance : Nat) → Parsing Filter
  | 0 => .cutOff
  | n + 1 => do
    let first ← next
    if first.kind = .rightBrace then
      leave
      return .mapping []
    else
      unread first
      let entries ← entries n
      leave
      return .mapping entries

/-- The entries of a mapping, up to the closing brace. -/
def entries : (allowance : Nat) → Parsing (List (String × Filter))
  | 0 => .cutOff
  | n + 1 => do
    let name ← next
    if name.kind.isName then
      let colon ← next
      if colon.kind = .colon then
        let value ← chain n
        let t ← next
        match t.kind with
        | .comma => return (name.text, value) :: (← entries n)
        | .rightBrace => return [(name.text, value)]
        | _ => refuse t .entryEnd
      else refuse colon .colon
    else refuse name .entryName

end

/-- Further chains, each after a comma, up to the end of the text. -/
def chains : (allowance : Nat) → Parsing (List Filter)
  | 0 => .cutOff
  | n + 1 => do
    let t ← next
    match t.kind with
    | .comma =>
      let filter ← chain n
      return filter :: (← chains n)
    | .finish => return []
    | _ => refuse t .separator

/-- A whole program: its first chain, and the others. -/
def program (allowance : Nat) : Parsing (Filter × List Filter) := do
  let first ← chain allowance
  let rest ← chains allowance
  return (first, rest)

end Parsing

end TreeQuery
