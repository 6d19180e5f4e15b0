import Mathlib.Tactic.Ring
import TreeQuery.Decimal.Basic
import TreeQuery.Filter
import TreeQuery.Proofs.Token.Ahead

/-!
# The grammar of filters

Which lexemes stand for which filter, said without a parser:

```text
program   := chain (',' chain)*
chain     := sum ('|' sum)*
sum       := product ('+' product)*
product   := operand ('*' operand)*
operand   := selectors | literal | mapping
literal   := NUMBER | '-' NUMBER | QUOTED | TEXT
selectors := ('.' [NAME] | '[' range ']')+
range     := [NUMBER] [':' [NUMBER]]
mapping   := '{' [entry (',' entry)*] '}'
entry     := NAME ':' chain
```

A relation between lists of lexemes and what they stand for belongs to each line. The relations for
operands and whatever is made of them take the one for mappings as an argument. So the limit on
mappings inside each other becomes a recursion: a chain within `d + 1` levels may hold mappings of
chains within `d` levels, a chain within none holds no mapping.

## Main definitions

* `Grammar.Trailing`, `Grammar.Separated` — phrases with separators
* `Grammar.Range`, `Grammar.Selectors`, `Grammar.Literal` — the parts without separators
* `Grammar.Chain`, `Grammar.Program` — chains and programs within a number of levels
-/

namespace TreeQuery

namespace Grammar

variable {α : Type}

/-! ### Phrases with separators -/

/-- `(separator phrase)*`: phrases with a separator before each of them. -/
inductive Trailing (separator : TokenKind) (Phrase : List Lexeme → α → Prop) :
    List Lexeme → List α → Prop
  | nil : Trailing separator Phrase [] []
  | cons {l : Lexeme} {ls ls' : List Lexeme} {a : α} {as : List α} (between : l.kind = separator)
      (phrase : Phrase ls a) (rest : Trailing separator Phrase ls' as) :
      Trailing separator Phrase (l :: (ls ++ ls')) (a :: as)

/-- `phrase (separator phrase)*`: phrases with a separator between each two of them. -/
inductive Separated (separator : TokenKind) (Phrase : List Lexeme → α → Prop) :
    List Lexeme → List α → Prop
  | intro {ls ls' : List Lexeme} {a : α} {as : List α} (first : Phrase ls a)
      (rest : Trailing separator Phrase ls' as) : Separated separator Phrase (ls ++ ls') (a :: as)

/-- A phrase and a separator may stand in front of others. -/
theorem Separated.cons {separator : TokenKind} {Phrase : List Lexeme → α → Prop} {l : Lexeme}
    {ls ls' : List Lexeme} {a : α} {as : List α} (phrase : Phrase ls a)
    (between : l.kind = separator) (rest : Separated separator Phrase ls' as) :
    Separated separator Phrase (ls ++ l :: ls') (a :: as) := by
  cases rest with
  | intro first rest => exact .intro phrase (.cons between first rest)

/-- A filter on its own stands for itself, several are put into one form. -/
inductive Collapsed (form : List Filter → Filter) : List Filter → Filter → Prop
  | one (f : Filter) : Collapsed form [f] f
  | several (f g : Filter) (fs : List Filter) :
      Collapsed form (f :: g :: fs) (form (f :: g :: fs))

theorem collapsed_of_two_le {form : List Filter → Filter} {fs : List Filter} (h : 2 ≤ fs.length) :
    Collapsed form fs (form fs) := by
  cases fs with
  | nil => exact absurd h (by decide)
  | cons f fs =>
    cases fs with
    | nil => exact absurd h (by simp)
    | cons g fs => exact .several f g fs

/-- An operation joins filters from the left: each one is the right operand to all before it. -/
inductive LeftNested (op : Operator) : List Filter → Filter → Prop
  | intro (first : Filter) (rest : List Filter) :
      LeftNested op (first :: rest) (rest.foldl (.binary op) first)

/-- Phrases with separators, joined to one filter. -/
def Joined (separator : TokenKind) (Join : List Filter → Filter → Prop)
    (Phrase : List Lexeme → Filter → Prop) (ls : List Lexeme) (f : Filter) : Prop :=
  ∃ fs, Separated separator Phrase ls fs ∧ Join fs f

/-! ### Numbers -/

/-- A number with its value as a double. -/
structure IsNumber (l : Lexeme) (x : Float) : Prop where
  kind : l.kind = .number
  value : (Decimal.ofNumeral? l.text.toList).map Decimal.toFloat = some x

/-- A number that is a position: digits alone, their value below 2 ^ 64. -/
structure IsIndex (l : Lexeme) (i : Nat) : Prop where
  kind : l.kind = .number
  nonempty : l.text.toList ≠ []
  digits : ∀ c ∈ l.text.toList, c.isDigit
  value : Nat.ofDigitChars 10 l.text.toList 0 = i
  bound : i < 2 ^ 64

/-! ### Selectors -/

/-- `[NUMBER] [':' [NUMBER]]` -/
inductive Range : List Lexeme → Selector → Prop
  | empty : Range [] (.slice ⟨0, none, true⟩)
  | index {l : Lexeme} {i : Nat} (index : IsIndex l i) : Range [l] (.index i)
  | colon {c : Lexeme} (colon : c.kind = .colon) : Range [c] (.slice ⟨0, none, true⟩)
  | since {l c : Lexeme} {i : Nat} (start : IsIndex l i) (colon : c.kind = .colon) :
      Range [l, c] (.slice ⟨i, none, false⟩)
  | upTo {c r : Lexeme} {j : Nat} (colon : c.kind = .colon) (stop : IsIndex r j) :
      Range [c, r] (.slice ⟨0, some j, false⟩)
  | between {l c r : Lexeme} {i j : Nat} (start : IsIndex l i) (colon : c.kind = .colon)
      (stop : IsIndex r j) : Range [l, c, r] (.slice ⟨i, some j, false⟩)

/-- `('.' [NAME] | '[' range ']')*`: a dot without a name adds no selector. -/
inductive Segments : List Lexeme → List Selector → Prop
  | nil : Segments [] []
  | dot {d : Lexeme} {ls : List Lexeme} {steps : List Selector} (dot : d.kind = .dot)
      (rest : Segments ls steps) : Segments (d :: ls) steps
  | key {d name : Lexeme} {ls : List Lexeme} {steps : List Selector} (dot : d.kind = .dot)
      (isName : name.kind.isName) (rest : Segments ls steps) :
      Segments (d :: name :: ls) (.key name.text :: steps)
  | bracket {l r : Lexeme} {ls ls' : List Lexeme} {step : Selector} {steps : List Selector}
      (left : l.kind = .leftBracket) (range : Range ls step) (right : r.kind = .rightBracket)
      (rest : Segments ls' steps) : Segments (l :: (ls ++ r :: ls')) (step :: steps)

/-- No selector is the identity, one stands for itself, and several are a path. -/
inductive Path : List Selector → Filter → Prop
  | none : Path [] (.select .identity)
  | one (s : Selector) : Path [s] (.select s)
  | several (s t : Selector) (steps : List Selector) :
      Path (s :: t :: steps) (.path (s :: t :: steps))

/-- `('.' [NAME] | '[' range ']')+` -/
def Selectors (ls : List Lexeme) (f : Filter) : Prop :=
  ls ≠ [] ∧ ∃ steps, Segments ls steps ∧ Path steps f

/-! ### Filters -/

/-- `NUMBER | '-' NUMBER | QUOTED | TEXT`: the text `length` is a filter of its own unless it is
quoted. -/
inductive Literal : List Lexeme → Filter → Prop
  | number {l : Lexeme} {x : Float} (number : IsNumber l x) : Literal [l] (.number x)
  | negative {sign l : Lexeme} {x : Float} (minus : sign.kind = .minus) (number : IsNumber l x) :
      Literal [sign, l] (.number (-x))
  | quoted {l : Lexeme} (kind : l.kind = .quoted) : Literal [l] (.text l.text)
  | length {l : Lexeme} (kind : l.kind = .text) (text : l.text = "length") : Literal [l] .length
  | text {l : Lexeme} (kind : l.kind = .text) (text : l.text ≠ "length") :
      Literal [l] (.text l.text)

/-- `selectors | literal | mapping` -/
inductive Operand (Mapping : List Lexeme → Filter → Prop) : List Lexeme → Filter → Prop
  | selectors {ls : List Lexeme} {f : Filter} (selectors : Selectors ls f) : Operand Mapping ls f
  | literal {ls : List Lexeme} {f : Filter} (literal : Literal ls f) : Operand Mapping ls f
  | mapping {ls : List Lexeme} {f : Filter} (mapping : Mapping ls f) : Operand Mapping ls f

/-- Operands joined by stars. -/
def Product (Mapping : List Lexeme → Filter → Prop) : List Lexeme → Filter → Prop :=
  Joined .star (LeftNested .multiply) (Operand Mapping)

/-- Products joined by plus signs. -/
def Sum (Mapping : List Lexeme → Filter → Prop) : List Lexeme → Filter → Prop :=
  Joined .plus (LeftNested .add) (Product Mapping)

/-- Sums joined by bars. -/
def ChainOver (Mapping : List Lexeme → Filter → Prop) : List Lexeme → Filter → Prop :=
  Joined .pipe (Collapsed .pipe) (Sum Mapping)

/-- `NAME ':' chain` -/
inductive Entry (Chain : List Lexeme → Filter → Prop) : List Lexeme → String × Filter → Prop
  | intro {name c : Lexeme} {ls : List Lexeme} {f : Filter} (isName : name.kind.isName)
      (colon : c.kind = .colon) (value : Chain ls f) :
      Entry Chain (name :: c :: ls) (name.text, f)

/-- `'{' [entry (',' entry)*] '}'` -/
inductive Mapping (Chain : List Lexeme → Filter → Prop) : List Lexeme → Filter → Prop
  | empty {l r : Lexeme} (left : l.kind = .leftBrace) (right : r.kind = .rightBrace) :
      Mapping Chain [l, r] (.mapping [])
  | entries {l r : Lexeme} {ls : List Lexeme} {es : List (String × Filter)}
      (left : l.kind = .leftBrace) (entries : Separated .comma (Entry Chain) ls es)
      (right : r.kind = .rightBrace) : Mapping Chain (l :: (ls ++ [r])) (.mapping es)

/-- The mappings in a chain that may stand `depth` deep inside each other: none, or those whose
entries have chains with one level less. -/
def MappingWithin : (depth : Nat) → List Lexeme → Filter → Prop
  | 0 => fun _ _ => False
  | depth + 1 => Mapping (ChainOver (MappingWithin depth))

/-- A chain whose mappings stand at most `depth` deep inside each other. -/
def Chain (depth : Nat) : List Lexeme → Filter → Prop :=
  ChainOver (MappingWithin depth)

/-- A whole program whose mappings stand at most `depth` deep inside each other. -/
def Program (depth : Nat) : List Lexeme → Filter → Prop :=
  Joined .comma (Collapsed .group) (Chain depth)

/-! ### More levels than needed -/

theorem Trailing.mono {separator : TokenKind} {Phrase Phrase' : List Lexeme → α → Prop}
    (weaker : ∀ {ls a}, Phrase ls a → Phrase' ls a) {ls : List Lexeme} {as : List α}
    (h : Trailing separator Phrase ls as) : Trailing separator Phrase' ls as := by
  induction h with
  | nil => exact .nil
  | cons between phrase _ ih => exact .cons between (weaker phrase) ih

theorem Separated.mono {separator : TokenKind} {Phrase Phrase' : List Lexeme → α → Prop}
    (weaker : ∀ {ls a}, Phrase ls a → Phrase' ls a) {ls : List Lexeme} {as : List α}
    (h : Separated separator Phrase ls as) : Separated separator Phrase' ls as := by
  obtain ⟨first, rest⟩ := h
  exact .intro (weaker first) (rest.mono weaker)

theorem Joined.mono {separator : TokenKind} {Join : List Filter → Filter → Prop}
    {Phrase Phrase' : List Lexeme → Filter → Prop} (weaker : ∀ {ls f}, Phrase ls f → Phrase' ls f)
    {ls : List Lexeme} {f : Filter} (h : Joined separator Join Phrase ls f) :
    Joined separator Join Phrase' ls f := by
  obtain ⟨fs, phrases, join⟩ := h
  exact ⟨fs, phrases.mono weaker, join⟩

theorem Operand.mono {Mapping Mapping' : List Lexeme → Filter → Prop}
    (weaker : ∀ {ls f}, Mapping ls f → Mapping' ls f) {ls : List Lexeme} {f : Filter}
    (h : Operand Mapping ls f) : Operand Mapping' ls f := by
  cases h with
  | selectors selectors => exact .selectors selectors
  | literal literal => exact .literal literal
  | mapping mapping => exact .mapping (weaker mapping)

theorem ChainOver.mono {Mapping Mapping' : List Lexeme → Filter → Prop}
    (weaker : ∀ {ls f}, Mapping ls f → Mapping' ls f) {ls : List Lexeme} {f : Filter}
    (h : ChainOver Mapping ls f) : ChainOver Mapping' ls f :=
  Joined.mono (Joined.mono (Joined.mono (Operand.mono weaker))) h

theorem Mapping.mono {Chain Chain' : List Lexeme → Filter → Prop}
    (weaker : ∀ {ls f}, Chain ls f → Chain' ls f) {ls : List Lexeme} {f : Filter}
    (h : Mapping Chain ls f) : Mapping Chain' ls f := by
  cases h with
  | empty left right => exact .empty left right
  | entries left entries right =>
    refine .entries left (entries.mono ?_) right
    rintro ls entry ⟨isName, colon, value⟩
    exact .intro isName colon (weaker value)

theorem MappingWithin.mono {depth depth' : Nat} (le : depth ≤ depth') {ls : List Lexeme}
    {f : Filter} (h : MappingWithin depth ls f) : MappingWithin depth' ls f := by
  induction depth generalizing depth' ls f with
  | zero => exact h.elim
  | succ depth ih =>
    cases depth' with
    | zero => exact absurd le (Nat.not_succ_le_zero depth)
    | succ depth' => exact Mapping.mono (ChainOver.mono (ih (Nat.le_of_succ_le_succ le))) h

theorem Chain.mono {depth depth' : Nat} (le : depth ≤ depth') {ls : List Lexeme} {f : Filter}
    (h : Chain depth ls f) : Chain depth' ls f :=
  ChainOver.mono (MappingWithin.mono le) h

theorem Program.mono {depth depth' : Nat} (le : depth ≤ depth') {ls : List Lexeme} {f : Filter}
    (h : Program depth ls f) : Program depth' ls f :=
  Joined.mono (Chain.mono le) h

end Grammar

end TreeQuery
