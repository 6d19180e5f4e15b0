import Mathlib.Computability.Language
import TreeQuery.Proofs.Grammar.Completeness

/-!
# How phrases go on

To say which lexemes may still come, it does not matter what a phrase stands for: each line of the
grammar is looked at as a language of lexemes. For each of them this module says with which lexeme a
phrase can begin, and what can come after it.

## Main definitions

* `Grammar.phrases` — the lexemes that stand for something
* `Grammar.afterDot`, `Grammar.bracketRest`, `Grammar.entryList`, `Grammar.afterName`,
  `Grammar.entryTail`, `Grammar.mappingRest`, `Grammar.signedNumber` — what is left of a phrase
  after some of its lexemes

## Main statements

* `Grammar.cons_mem_trailing`, `Grammar.cons_mem_segments`, `Grammar.cons_mem_operand`,
  `Grammar.cons_mem_entryList` — the first lexeme of a phrase, and the rest
-/

namespace TreeQuery

namespace Grammar

variable {α : Type} {l : Lexeme} {ls : List Lexeme}

/-- The lexemes that stand for something. -/
def phrases (Phrase : List Lexeme → α → Prop) : Language Lexeme := {ls | ∃ a, Phrase ls a}

theorem nil_mem_mul {L M : Language Lexeme} : [] ∈ L * M ↔ [] ∈ L ∧ [] ∈ M := by
  rw [Language.mem_mul]
  constructor
  · rintro ⟨a, hL, b, hM, same⟩
    obtain ⟨rfl, rfl⟩ := List.append_eq_nil_iff.mp same
    exact ⟨hL, hM⟩
  · rintro ⟨hL, hM⟩
    exact ⟨[], hL, [], hM, rfl⟩

/-- The first lexeme belongs to the first factor, unless that one may be missing. -/
theorem cons_mem_mul {L M : Language Lexeme} : l :: ls ∈ L * M ↔
    (∃ a b, l :: a ∈ L ∧ b ∈ M ∧ a ++ b = ls) ∨ [] ∈ L ∧ l :: ls ∈ M := by
  rw [Language.mem_mul]
  constructor
  · rintro ⟨a, hL, b, hM, same⟩
    cases a with
    | nil => exact .inr ⟨hL, same ▸ hM⟩
    | cons l' a =>
      obtain ⟨rfl, rest⟩ := List.cons.inj same
      exact .inl ⟨a, b, hL, hM, rest⟩
  · rintro (⟨a, b, hL, hM, rfl⟩ | ⟨hL, hM⟩)
    · exact ⟨l :: a, hL, b, hM, rfl⟩
    · exact ⟨[], hL, l :: ls, hM, rfl⟩

/-! ### Phrases with separators -/

section Separators

variable {separator : TokenKind} {Phrase : List Lexeme → α → Prop}

theorem nil_mem_trailing : [] ∈ phrases (Trailing separator Phrase) := ⟨[], .nil⟩

theorem cons_mem_trailing : l :: ls ∈ phrases (Trailing separator Phrase) ↔
    l.kind = separator ∧ ls ∈ phrases Phrase * phrases (Trailing separator Phrase) := by
  constructor
  · rintro ⟨_, _ | ⟨between, phrase, rest⟩⟩
    exact ⟨between, Language.append_mem_mul ⟨_, phrase⟩ ⟨_, rest⟩⟩
  · rintro ⟨between, h⟩
    obtain ⟨_, ⟨_, phrase⟩, _, ⟨_, rest⟩, rfl⟩ := Language.mem_mul.mp h
    exact ⟨_, .cons between phrase rest⟩

theorem phrases_separated : phrases (Separated separator Phrase) =
    phrases Phrase * phrases (Trailing separator Phrase) := by
  ext ls
  rw [Language.mem_mul]
  constructor
  · rintro ⟨_, phrase, rest⟩
    exact ⟨_, ⟨_, phrase⟩, _, ⟨_, rest⟩, rfl⟩
  · rintro ⟨_, ⟨_, phrase⟩, _, ⟨_, rest⟩, rfl⟩
    exact ⟨_, .intro phrase rest⟩

/-- What phrases are joined to does not matter, as long as they can be joined. -/
theorem phrases_joined {Join : List Filter → Filter → Prop} {Phrase : List Lexeme → Filter → Prop}
    (join : ∀ f fs, ∃ g, Join (f :: fs) g) : phrases (Joined separator Join Phrase) =
      phrases Phrase * phrases (Trailing separator Phrase) := by
  rw [← phrases_separated]
  ext ls
  constructor
  · rintro ⟨_, fs, phrase, -⟩
    exact ⟨fs, phrase⟩
  · rintro ⟨_, phrase⟩
    obtain ⟨first, rest⟩ := phrase
    obtain ⟨g, joined⟩ := join _ _
    exact ⟨g, _, .intro first rest, joined⟩

/-- What comes after a phrase may follow it, whether or not there are further phrases. -/
theorem follows_of_mem_trailing {inner outer : TokenKind → Bool} (between : inner separator)
    (narrower : ∀ kind, outer kind → inner kind) {more : List Lexeme}
    (mem : ls ∈ phrases (Trailing separator Phrase)) (further : Follows outer more) :
    Follows inner (ls ++ more) := by
  obtain ⟨_, trailing⟩ := mem
  exact trailing.follows between (further.mono narrower)

end Separators

section Levels

variable {Mapping : List Lexeme → Filter → Prop}

theorem phrases_product : phrases (Product Mapping) =
    phrases (Operand Mapping) * phrases (Trailing .star (Operand Mapping)) :=
  phrases_joined fun f fs => ⟨_, .intro f fs⟩

theorem phrases_sum : phrases (Sum Mapping) =
    phrases (Product Mapping) * phrases (Trailing .plus (Product Mapping)) :=
  phrases_joined fun f fs => ⟨_, .intro f fs⟩

theorem phrases_chainOver : phrases (ChainOver Mapping) =
    phrases (Sum Mapping) * phrases (Trailing .pipe (Sum Mapping)) :=
  phrases_joined fun f fs => ⟨_, Parsing.collapsed_ofStages f fs⟩

end Levels

theorem phrases_program (depth : Nat) : phrases (Program depth) =
    phrases (Chain depth) * phrases (Trailing .comma (Chain depth)) :=
  phrases_joined fun f fs => ⟨_, Parsing.collapsed_ofChains f fs⟩

/-! ### Brackets and selectors -/

/-- What may come between brackets after some lexemes there, up to the closing bracket. -/
def bracketRest (before : List Lexeme) : Language Lexeme :=
  {ls | ∃ inner r step, ls = inner ++ [r] ∧ r.kind = .rightBracket ∧ Range (before ++ inner) step}

theorem nil_notMem_bracketRest {before : List Lexeme} : [] ∉ bracketRest before := by
  rintro ⟨inner, r, _, same, -⟩
  cases inner <;> cases same

/-- Wherever the brackets may be closed at once, there is something that may come. -/
theorem singleton_mem_bracketRest {before : List Lexeme} {b : Bracket}
    (h : Parsing.Bracketed before b) (right : l.kind = .rightBracket) :
    [l] ∈ bracketRest before := by
  refine ⟨[], l, b.toSelector, rfl, right, ?_⟩
  rw [List.append_nil]
  exact h.range

/-- A closing bracket is the last lexeme, and any other one stands between the brackets. -/
theorem cons_mem_bracketRest {before : List Lexeme} {b : Bracket}
    (h : Parsing.Bracketed before b) : l :: ls ∈ bracketRest before ↔
      l.kind = .rightBracket ∧ ls = [] ∨
        l.kind ≠ .rightBracket ∧ ls ∈ bracketRest (before ++ [l]) := by
  constructor
  · rintro ⟨inner, r, step, same, right, range⟩
    cases inner with
    | nil =>
      cases same
      exact .inl ⟨right, rfl⟩
    | cons l' inner =>
      obtain ⟨rfl, rfl⟩ := List.cons.inj same
      refine .inr ⟨fun kind => ?_, inner, r, step, rfl, right, by rwa [List.append_assoc]⟩
      rcases range.kind l (List.mem_append_right _ (List.mem_cons_self ..)) with other | other <;>
        rw [kind] at other <;> cases other
  · rintro (⟨right, rfl⟩ | ⟨-, inner, r, step, rfl, right, range⟩)
    · exact singleton_mem_bracketRest h right
    · exact ⟨l :: inner, r, step, rfl, right, by rwa [List.append_assoc] at range⟩

/-- What may come after a dot: further selectors, or a name before them. -/
def afterDot : Language Lexeme :=
  {ls | ls ∈ phrases Segments ∨
    ∃ name rest, ls = name :: rest ∧ name.kind.isName ∧ rest ∈ phrases Segments}

theorem nil_mem_segments : [] ∈ phrases Segments := ⟨[], .nil⟩

theorem cons_mem_segments : l :: ls ∈ phrases Segments ↔
    l.kind = .dot ∧ ls ∈ afterDot ∨
      l.kind = .leftBracket ∧ ls ∈ bracketRest [] * phrases Segments := by
  constructor
  · rintro ⟨_, _ | ⟨dot, rest⟩ | ⟨dot, isName, rest⟩ | ⟨left, range, right, rest⟩⟩
    · exact .inl ⟨dot, .inl ⟨_, rest⟩⟩
    · exact .inl ⟨dot, .inr ⟨_, _, rfl, isName, _, rest⟩⟩
    · refine .inr ⟨left, Language.mem_mul.mpr ⟨_, ⟨_, _, _, rfl, right, range⟩, _, ⟨_, rest⟩, ?_⟩⟩
      rw [List.append_assoc]
      rfl
  · rintro (⟨dot, ⟨_, rest⟩ | ⟨name, rest, rfl, isName, _, segments⟩⟩ | ⟨left, h⟩)
    · exact ⟨_, .dot dot rest⟩
    · exact ⟨_, .key dot isName segments⟩
    · obtain ⟨_, ⟨inner, r, step, rfl, right, range⟩, _, ⟨_, rest⟩, rfl⟩ := Language.mem_mul.mp h
      rw [List.append_assoc]
      exact ⟨_, .bracket left range right rest⟩

/-- A name after a dot belongs to it, for no selectors begin with a name. -/
theorem cons_mem_afterDot (isName : l.kind.isName) :
    l :: ls ∈ afterDot ↔ ls ∈ phrases Segments := by
  constructor
  · rintro (segments | ⟨_, _, same, -, rest⟩)
    · rcases cons_mem_segments.mp segments with ⟨kind, -⟩ | ⟨kind, -⟩ <;> rw [kind] at isName <;>
        cases isName
    · cases same
      exact rest
  · exact fun rest => .inr ⟨l, ls, rfl, isName, rest⟩

/-! ### Mappings -/

/-- The brace that closes a mapping. -/
def closingBrace : Language Lexeme := {ls | ∃ r : Lexeme, r.kind = .rightBrace ∧ ls = [r]}

variable {Chain : List Lexeme → Filter → Prop}

/-- What may come after an entry: further ones, and the closing brace. -/
def entryTail (Chain : List Lexeme → Filter → Prop) : Language Lexeme :=
  phrases (Trailing .comma (Entry Chain)) * closingBrace

/-- The entries of a mapping and the closing brace. -/
def entryList (Chain : List Lexeme → Filter → Prop) : Language Lexeme :=
  phrases (Entry Chain) * entryTail Chain

theorem cons_mem_entryTail : l :: ls ∈ entryTail Chain ↔
    l.kind = .comma ∧ ls ∈ entryList Chain ∨ l.kind = .rightBrace ∧ ls = [] := by
  rw [entryTail, cons_mem_mul]
  simp only [cons_mem_trailing, nil_mem_trailing, true_and]
  constructor
  · rintro (⟨a, b, ⟨between, h⟩, closing, rfl⟩ | ⟨r, right, same⟩)
    · refine .inl ⟨between, ?_⟩
      rw [entryList, entryTail, ← mul_assoc]
      exact Language.append_mem_mul h closing
    · cases same
      exact .inr ⟨right, rfl⟩
  · rintro (⟨between, h⟩ | ⟨right, rfl⟩)
    · rw [entryList, entryTail, ← mul_assoc] at h
      obtain ⟨a, first, b, closing, rfl⟩ := Language.mem_mul.mp h
      exact .inl ⟨a, b, ⟨between, first⟩, closing, rfl⟩
    · exact .inr ⟨l, right, rfl⟩

theorem nil_notMem_entryTail : [] ∉ entryTail Chain := by
  rw [entryTail, nil_mem_mul]
  rintro ⟨-, r, -, same⟩
  cases same

/-- What may come after the name of an entry. -/
def afterName (Chain : List Lexeme → Filter → Prop) : Language Lexeme :=
  {ls | ∃ c rest, ls = c :: rest ∧ c.kind = .colon ∧ rest ∈ phrases Chain * entryTail Chain}

theorem cons_mem_afterName : l :: ls ∈ afterName Chain ↔
    l.kind = .colon ∧ ls ∈ phrases Chain * entryTail Chain := by
  constructor
  · rintro ⟨_, _, same, colon, mem⟩
    cases same
    exact ⟨colon, mem⟩
  · rintro ⟨colon, mem⟩
    exact ⟨l, ls, rfl, colon, mem⟩

theorem nil_notMem_afterName : [] ∉ afterName Chain := by
  rintro ⟨_, _, same, -⟩
  cases same

theorem cons_mem_entryList : l :: ls ∈ entryList Chain ↔ l.kind.isName ∧ ls ∈ afterName Chain := by
  rw [entryList, cons_mem_mul]
  constructor
  · rintro (⟨_, b, ⟨_, isName, colon, value⟩, tail, rfl⟩ | ⟨⟨_, entry⟩, -⟩)
    · exact ⟨isName, cons_mem_afterName.mpr ⟨colon, Language.append_mem_mul ⟨_, value⟩ tail⟩⟩
    · cases entry
  · rintro ⟨isName, c, rest, rfl, colon, mem⟩
    obtain ⟨a, ⟨_, value⟩, b, tail, rfl⟩ := Language.mem_mul.mp mem
    exact .inl ⟨c :: a, b, ⟨_, .intro isName colon value⟩, tail, rfl⟩

theorem nil_notMem_entryList : [] ∉ entryList Chain := by
  rw [entryList, nil_mem_mul]
  rintro ⟨⟨_, entry⟩, -⟩
  cases entry

/-- What may come after an entry does not continue its chain. -/
theorem follows_of_mem_entryTail {more : List Lexeme} (mem : ls ∈ entryTail Chain) :
    Follows endsChain (ls ++ more) := by
  cases ls with
  | nil => exact absurd mem nil_notMem_entryTail
  | cons l ls =>
    rw [List.cons_append, follows_cons]
    rcases cons_mem_entryTail.mp mem with ⟨kind, -⟩ | ⟨kind, -⟩ <;> rw [kind] <;> rfl

/-- What may come after the opening brace of a mapping. -/
def mappingRest (Chain : List Lexeme → Filter → Prop) : Language Lexeme :=
  closingBrace + entryList Chain

/-- A mapping that is closed at once has no entries. -/
theorem cons_mem_mappingRest (right : l.kind = .rightBrace) :
    l :: ls ∈ mappingRest Chain ↔ ls = [] := by
  constructor
  · rintro (⟨r, -, same⟩ | mem)
    · exact (List.cons.inj same).2
    · have isName := (cons_mem_entryList.mp mem).1
      rw [right] at isName
      cases isName
  · rintro rfl
    exact .inl ⟨l, right, rfl⟩

theorem nil_notMem_mappingRest : [] ∉ mappingRest Chain := by
  rintro (⟨_, -, same⟩ | mem)
  · cases same
  · exact nil_notMem_entryList mem

/-- After its opening brace a mapping has entries, or it is closed at once. -/
theorem cons_mem_mappingWithin {depth : Nat} (left : l.kind = .leftBrace) :
    l :: ls ∈ phrases (MappingWithin (depth + 1)) ↔
      ls ∈ mappingRest (Grammar.Chain depth) := by
  rw [mappingRest, Language.mem_add, entryList, entryTail, ← mul_assoc, ← phrases_separated]
  constructor
  · rintro ⟨_, ⟨-, right⟩ | ⟨-, entries, right⟩⟩
    · exact .inl ⟨_, right, rfl⟩
    · exact .inr (Language.append_mem_mul ⟨_, entries⟩ ⟨_, right, rfl⟩)
  · rintro (⟨r, right, rfl⟩ | h)
    · exact ⟨_, .empty left right⟩
    · obtain ⟨_, ⟨_, entries⟩, _, ⟨r, right, rfl⟩, rfl⟩ := Language.mem_mul.mp h
      exact ⟨_, .entries left entries right⟩

/-! ### Operands -/

/-- The number that a sign belongs to. -/
def signedNumber : Language Lexeme := {ls | ∃ number x, ls = [number] ∧ IsNumber number x}

theorem cons_mem_signedNumber : l :: ls ∈ signedNumber ↔ ls = [] ∧ ∃ x, IsNumber l x := by
  constructor
  · rintro ⟨_, x, same, number⟩
    cases same
    exact ⟨rfl, x, number⟩
  · rintro ⟨rfl, x, number⟩
    exact ⟨l, x, rfl, number⟩

theorem nil_notMem_signedNumber : [] ∉ signedNumber := by
  rintro ⟨_, _, same, -⟩
  cases same

theorem nil_notMem_operand {depth : Nat} : [] ∉ phrases (Operand (MappingWithin depth)) := by
  rintro ⟨f, operand⟩
  have opens : ∃ opens, OpensWith opens ([] : List Lexeme) := by
    cases operand with
    | selectors selectors => exact ⟨_, selectors.opens⟩
    | literal literal => exact ⟨_, literal.opens⟩
    | mapping mapping => exact ⟨_, mapping.opens⟩
  obtain ⟨_, _, _, same, -⟩ := opens
  cases same

theorem mem_operand_of_mem_segments {depth : Nat} (mem : ls ∈ phrases Segments)
    (nonempty : ls ≠ []) : ls ∈ phrases (Operand (MappingWithin depth)) := by
  obtain ⟨steps, segments⟩ := mem
  exact ⟨_, .selectors ⟨nonempty, steps, segments, Parsing.path_ofSteps steps⟩⟩

/-- The first lexeme of an operand tells what it is, and what may come after it. -/
theorem cons_mem_operand {depth : Nat} : l :: ls ∈ phrases (Operand (MappingWithin depth)) ↔
    match l.kind with
    | .number => ls = [] ∧ ∃ x, IsNumber l x
    | .minus => ls ∈ signedNumber
    | .quoted | .text => ls = []
    | .dot | .leftBracket => l :: ls ∈ phrases Segments
    | .leftBrace => l :: ls ∈ phrases (MappingWithin depth)
    | _ => False := by
  constructor
  · rintro ⟨f, operand⟩
    cases operand with
    | selectors selectors =>
      obtain ⟨_, _, same, opened⟩ := selectors.opens
      obtain ⟨-, steps, segments, -⟩ := selectors
      obtain ⟨rfl, rfl⟩ := List.cons.inj same
      -- Selectors open with a dot or with a bracket.
      rcases opensSelectors_iff.mp opened with kind | kind <;> rw [kind] <;> exact ⟨steps, segments⟩
    | literal literal =>
      cases literal with
      | number number =>
        rw [number.kind]
        exact ⟨rfl, _, number⟩
      | negative minus number =>
        rw [minus]
        exact ⟨_, _, rfl, number⟩
      | quoted kind => rw [kind]
      | length kind _ => rw [kind]
      | text kind _ => rw [kind]
    | mapping mapping =>
      obtain ⟨_, _, same, opened⟩ := mapping.opens
      obtain ⟨rfl, rfl⟩ := List.cons.inj same
      rw [decide_eq_true_eq] at opened
      rw [opened]
      exact ⟨f, mapping⟩
  · intro h
    split at h
    · obtain ⟨rfl, x, number⟩ := h
      exact ⟨_, .literal (.number number)⟩
    · next kind =>
      obtain ⟨_, x, rfl, number⟩ := h
      exact ⟨_, .literal (.negative kind number)⟩
    · next kind =>
      subst h
      exact ⟨_, .literal (.quoted kind)⟩
    · next kind =>
      subst h
      by_cases text : l.text = "length"
      · exact ⟨_, .literal (.length kind text)⟩
      · exact ⟨_, .literal (.text kind text)⟩
    · exact mem_operand_of_mem_segments h (List.cons_ne_nil _ _)
    · exact mem_operand_of_mem_segments h (List.cons_ne_nil _ _)
    · obtain ⟨f, mapping⟩ := h
      exact ⟨f, .mapping mapping⟩
    · exact h.elim

/-! ### There are phrases of each sort -/

theorem exists_mem_signedNumber : ∃ ls, ls ∈ signedNumber :=
  ⟨_, ⟨.number, "0"⟩, _, rfl, rfl, rfl⟩

theorem exists_mem_operand (depth : Nat) : ∃ ls, ls ∈ phrases (Operand (MappingWithin depth)) :=
  ⟨[⟨.dot, "."⟩], cons_mem_operand.mpr (cons_mem_segments.mpr (.inl ⟨rfl, .inl nil_mem_segments⟩))⟩

theorem exists_mem_mul {L M : Language Lexeme} (hL : ∃ ls, ls ∈ L) (hM : ∃ ls, ls ∈ M) :
    ∃ ls, ls ∈ L * M := by
  obtain ⟨a, hL⟩ := hL
  obtain ⟨b, hM⟩ := hM
  exact ⟨a ++ b, Language.append_mem_mul hL hM⟩

theorem exists_mem_product (depth : Nat) : ∃ ls, ls ∈ phrases (Product (MappingWithin depth)) := by
  rw [phrases_product]
  exact exists_mem_mul (exists_mem_operand depth) ⟨[], nil_mem_trailing⟩

theorem exists_mem_sum (depth : Nat) : ∃ ls, ls ∈ phrases (Sum (MappingWithin depth)) := by
  rw [phrases_sum]
  exact exists_mem_mul (exists_mem_product depth) ⟨[], nil_mem_trailing⟩

theorem exists_mem_chain (depth : Nat) : ∃ ls, ls ∈ phrases (Grammar.Chain depth) := by
  rw [Grammar.Chain, phrases_chainOver]
  exact exists_mem_mul (exists_mem_sum depth) ⟨[], nil_mem_trailing⟩

theorem exists_mem_entryTail : ∃ ls, ls ∈ entryTail Chain :=
  ⟨[⟨.rightBrace, "\x7d"⟩], cons_mem_entryTail.mpr (.inr ⟨rfl, rfl⟩)⟩

theorem exists_mem_mappingRest : ∃ ls, ls ∈ mappingRest Chain :=
  ⟨[⟨.rightBrace, "\x7d"⟩], .inl ⟨_, rfl, rfl⟩⟩

theorem exists_mem_afterName (depth : Nat) : ∃ ls, ls ∈ afterName (Grammar.Chain depth) := by
  obtain ⟨ls, mem⟩ := exists_mem_mul (exists_mem_chain depth) exists_mem_entryTail
  exact ⟨⟨.colon, ":"⟩ :: ls, cons_mem_afterName.mpr ⟨rfl, mem⟩⟩

theorem exists_mem_entryList (depth : Nat) : ∃ ls, ls ∈ entryList (Grammar.Chain depth) := by
  obtain ⟨ls, mem⟩ := exists_mem_afterName depth
  exact ⟨⟨.text, "a"⟩ :: ls, cons_mem_entryList.mpr ⟨rfl, mem⟩⟩

end Grammar

end TreeQuery
