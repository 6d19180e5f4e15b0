import TreeQuery.Filter.Parser
import TreeQuery.Proofs.Grammar.Completeness
import TreeQuery.Proofs.Token.Spelling

/-!
# Parsing follows the grammar

A text is parsed as a filter exactly when it falls into tokens that stand for the filter in the
grammar, and there is at most one such filter.

## Main statements

* `Filter.parse_eq_ok_iff`, `Filter.parse_eq_ok_iff_spells` — which texts are parsed, and as what
* `Filter.parse_follows_grammar` — the same, with what it comes with
-/

namespace TreeQuery

/-- Every numeral has a value. -/
theorem Decimal.isSome_ofNumeral? {cs : List Char} (h : isNumeral cs) :
    (ofNumeral? cs).isSome := by
  simp only [isNumeral, Bool.and_eq_true, Bool.not_eq_true'] at h
  obtain ⟨nonempty, fraction⟩ := h
  simp only [ofNumeral?, nonempty, Bool.false_eq_true, if_false]
  split
  · rfl
  · next point digits rest =>
    rw [rest] at fraction
    split at fraction
    · cases ‹point :: digits = []›
    · next same =>
      cases same
      simp_all
    · cases fraction

namespace Parser

theorem view_ofText (maxDepth : Nat) (text : String) : (ofText maxDepth text).view =
    ((Scanner.ofText text).ahead.1.map Token.lexeme, (Scanner.ofText text).ahead.2) :=
  rfl

theorem room_ofText (maxDepth : Nat) (text : String) : (ofText maxDepth text).room = maxDepth :=
  Nat.sub_zero maxDepth

/-- The numbers of a text have values, for a run is a number only if it is a numeral. -/
theorem readable_ofText (maxDepth : Nat) (text : String) : (ofText maxDepth text).Readable := by
  intro l mem kind
  rw [view_ofText] at mem
  obtain ⟨t, ahead, rfl⟩ := List.mem_map.mp mem
  have each (s : Scanner) (t : Token) (taken : s.next.1 = .ok t) (_ : t.kind ≠ .finish) :
      t.kind = .number → isNumeral t.text.toList :=
    s.gives_next.isNumeral taken
  exact Decimal.isSome_ofNumeral? (Scanner.forall_mem_ahead each _ t ahead kind)

/-- What every allowance meets, the program itself meets. -/
theorem program_met (p : Parser) {good : Filter × List Filter → Parser → Prop}
    {bad : ParseError → Prop} (h : ∀ n, Run.Meets (Parsing.program n) p good bad) :
    match p.program.1 with
    | .ok fs => good fs p.program.2
    | .error e => bad e := by
  have met := h p.allowance p.program.1 p.program.2 (p.outcome_program (Nat.le_refl _))
  cases parsed : p.program.1 with
  | ok fs =>
    rw [parsed] at met
    exact met
  | error e =>
    rw [parsed] at met
    exact met

end Parser

namespace Filter

open Run TreeQuery.Parser

variable {maxDepth : Nat} {text : String}

theorem parse_sound {f : Filter} (h : parse maxDepth text = .ok f) :
    (Scanner.ofText text).ahead.2 = none ∧
      Grammar.Program maxDepth ((Scanner.ofText text).ahead.1.map Token.lexeme) f := by
  have met := (ofText maxDepth text).program_met fun n =>
    Parsing.program_meets n _ (readable_ofText maxDepth text)
  unfold parse Parser.filter at h
  cases parsed : (ofText maxDepth text).program.1 with
  | error e =>
    rw [parsed] at h
    cases h
  | ok fs =>
    rw [parsed] at h met
    cases h
    rw [view_ofText, room_ofText] at met
    exact ⟨met.1, _, met.2, Parsing.collapsed_ofChains fs.1 fs.2⟩

theorem notOfNumber_of_parse {e : ParseError} (h : parse maxDepth text = .error e) :
    e.NotOfNumber := by
  have met := (ofText maxDepth text).program_met fun n =>
    Parsing.program_meets n _ (readable_ofText maxDepth text)
  unfold parse Parser.filter at h
  cases parsed : (ofText maxDepth text).program.1 with
  | error e' =>
    rw [parsed] at h met
    cases h
    exact met
  | ok fs =>
    rw [parsed] at h
    cases h

theorem parse_complete {f : Filter} (whole : (Scanner.ofText text).ahead.2 = none)
    (phrase : Grammar.Program maxDepth ((Scanner.ofText text).ahead.1.map Token.lexeme) f) :
    parse maxDepth text = .ok f := by
  obtain ⟨fs, chains, join⟩ := phrase
  have view : (ofText maxDepth text).view =
      ((Scanner.ofText text).ahead.1.map Token.lexeme, none) := by
    rw [view_ofText, whole]
  rw [← room_ofText maxDepth text] at chains
  have met := (ofText maxDepth text).program_met fun n => Parsing.program_finds n chains view
  unfold parse Parser.filter
  cases parsed : (ofText maxDepth text).program.1 with
  | error e =>
    rw [parsed] at met
    exact met.elim
  | ok gs =>
    rw [parsed] at met
    rw [← met] at join
    exact congrArg Except.ok ((Parsing.collapsed_ofChains gs.1 gs.2).unique join)

/-- A text is parsed as a filter exactly when it falls into tokens that stand for the filter. -/
theorem parse_eq_ok_iff {f : Filter} :
    parse maxDepth text = .ok f ↔
      (Scanner.ofText text).ahead.2 = none ∧
        Grammar.Program maxDepth ((Scanner.ofText text).ahead.1.map Token.lexeme) f :=
  ⟨parse_sound, fun ⟨whole, phrase⟩ => parse_complete whole phrase⟩

/-- The same, said of the characters of the text. -/
theorem parse_eq_ok_iff_spells {f : Filter} :
    parse maxDepth text = .ok f ↔ ∃ ls, Spells (seen text) ls ∧ Grammar.Program maxDepth ls f := by
  simp only [parse_eq_ok_iff, spells_seen_iff]
  constructor
  · rintro ⟨whole, phrase⟩
    exact ⟨_, ⟨whole, rfl⟩, phrase⟩
  · rintro ⟨ls, ⟨whole, rfl⟩, phrase⟩
    exact ⟨whole, phrase⟩

/-- A text is parsed as a filter exactly when it falls into tokens that stand for the filter in the
grammar, with mappings no deeper inside each other than allowed. The grammar leaves no choice
between filters, and no number that the scanner lets through is without a value. -/
theorem parse_follows_grammar (maxDepth : Nat) (text : String) :
    (∀ f, parse maxDepth text = .ok f ↔ ∃ ts last, tokenize text = .ok (ts ++ [last]) ∧
        last.kind = .finish ∧ Grammar.Program maxDepth (ts.map Token.lexeme) f) ∧
      (∀ ls f g depth depth',
        Grammar.Program depth ls f → Grammar.Program depth' ls g → f = g) ∧
      ∀ numeral position, parse maxDepth text ≠ .error (.invalidNumber numeral position) := by
  refine ⟨fun f => ⟨fun parsed => ?_, ?_⟩, ?_, ?_⟩
  · obtain ⟨whole, phrase⟩ := parse_eq_ok_iff.mp parsed
    exact ⟨_, _, Scanner.tokens_eq_ok_iff.mpr ⟨whole, rfl⟩, rfl, phrase⟩
  · rintro ⟨ts, last, tokens, -, phrase⟩
    obtain ⟨whole, same⟩ := Scanner.tokens_eq_ok_iff.mp tokens
    obtain ⟨rfl, -⟩ := List.append_inj' same rfl
    exact parse_eq_ok_iff.mpr ⟨whole, phrase⟩
  · intro ls f g depth depth' phrase phrase'
    exact Grammar.eq_of_program phrase phrase'
  · intro numeral position failed
    exact notOfNumber_of_parse failed

end Filter

end TreeQuery
