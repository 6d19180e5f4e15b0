import TreeQuery.Proofs.Grammar.Locality
import TreeQuery.Proofs.Grammar.Parse
import TreeQuery.Proofs.Grammar.Viability

/-!
# The leftmost error

An error of the parser names the first place where a text ceases to be the beginning of a program:
the tokens before this place can be continued to a program, and the token that stands there cannot
come next. What stands behind that token makes no difference. A text whose tokens can all be
continued is said to end too early, or it has a quote that is never closed.

## Main definitions

* `tokensBefore` — the tokens of a text that start before a place

## Main statements

* `Filter.exists_outlook_of_parse` — what is still to come at the place of an error
* `Filter.parse_congr` — the tokens behind the place of an error have no influence on it
* `Filter.parse_error_leftmost` — which place an error names
-/

namespace TreeQuery

open Grammar

/-- The tokens of a text that start before a place. -/
def tokensBefore (text : String) (place : Position) : List Token :=
  (Scanner.ofText text).ahead.1.filter (·.position.offset < place.offset)

theorem tokenize_eq (text : String) : tokenize text =
    (Scanner.ofText text).outlook.ending.map fun last =>
      (Scanner.ofText text).outlook.tokens ++ [last] :=
  Scanner.tokens_eq _

/-- A cause is found at a quote, at the end or at a token. -/
theorem ParseError.unclosedQuote_or_unexpectedEnd_or_ofToken (e : ParseError) :
    (∃ fault, e = unclosedQuote fault) ∨
      (∃ expected position, e = unexpectedEnd expected position) ∨ e.OfToken := by
  cases e with
  | unclosedQuote fault => exact .inl ⟨fault, rfl⟩
  | unexpectedEnd expected position => exact .inr (.inl ⟨expected, position, rfl⟩)
  | _ => exact .inr (.inr trivial)

namespace Filter

variable {maxDepth : Nat} {text : String} {e : ParseError}

theorem parse_eq_error_iff :
    parse maxDepth text = .error e ↔ (Parser.ofText maxDepth text).program.1 = .error e := by
  unfold parse Parser.filter
  cases (Parser.ofText maxDepth text).program.1 <;> simp [Except.map]

theorem blames_of_parse (failed : parse maxDepth text = .error e) :
    (Parser.ofText maxDepth text).Blames (phrases (Program maxDepth)) Parsing.endsProgram e := by
  have met := (Parser.ofText maxDepth text).program_met fun n => Parsing.program_blames n _
  rw [parse_eq_error_iff.mp failed, Parser.room_ofText] at met
  exact met

/-- At the place of an error, the tokens before it can be continued to a program, but not with what
comes next. -/
theorem exists_outlook_of_parse (failed : parse maxDepth text = .error e) :
    ∃ c : Outlook, (Scanner.ofText text).outlook = c.behind (tokensBefore text e.position) ∧
      c.Raises e ∧
      (∃ more f, Program maxDepth ((tokensBefore text e.position).map Token.lexeme ++ more) f) ∧
      ∀ phrase, ¬ Candidate (phrases (Program maxDepth)) Parsing.endsProgram
        ((tokensBefore text e.position).map Token.lexeme) c phrase := by
  obtain ⟨ts, c, outlook, raises, viable, refuted⟩ := blames_of_parse failed
  have ordered := Scanner.ordered_outlook_ofText text
  have whole : (Scanner.ofText text).outlook = c.behind ts := outlook
  have before : tokensBefore text e.position = ts := by
    rw [whole] at ordered
    rw [← ordered.filter_lt, ← whole, raises.position]
    rfl
  rw [before]
  exact ⟨c, whole, raises, viable, refuted⟩

/-! ### The three sorts of causes -/

/-- The quote that an error is about is the one that the scanner finds. -/
theorem tokenize_of_unclosedQuote {fault : UnclosedQuote}
    (failed : parse maxDepth text = .error (.unclosedQuote fault)) :
    tokenize text = .error fault := by
  obtain ⟨c, whole, raises, -⟩ := exists_outlook_of_parse failed
  rw [tokenize_eq, whole]
  match c, raises with
  | ⟨_ :: _, _⟩, raises => exact raises.1.elim
  | ⟨[], .ok _⟩, ⟨_, same⟩ => cases same
  | ⟨[], .error _⟩, same =>
    cases same
    rfl

/-- A text that ends too early has no fault, and its tokens are no program. -/
theorem tokenize_of_unexpectedEnd {expected : Expectation} {position : Position}
    (failed : parse maxDepth text = .error (.unexpectedEnd expected position)) :
    (∃ last, tokenize text = .ok (tokensBefore text position ++ [last]) ∧ last.kind = .finish ∧
      last.position = position) ∧
      ∀ f, ¬ Program maxDepth ((tokensBefore text position).map Token.lexeme) f := by
  obtain ⟨c, whole, raises, -, refuted⟩ := exists_outlook_of_parse failed
  match c, raises with
  | ⟨_ :: _, _⟩, raises => exact raises.1.elim
  | ⟨[], .error _⟩, same => cases same
  | ⟨[], .ok last⟩, ⟨_, same⟩ =>
    cases same
    have finish : last.kind = .finish :=
      Scanner.kind_of_ending (congrArg Outlook.ending whole)
    refine ⟨⟨last, ?_, finish, rfl⟩, fun f program => refuted _ ⟨⟨f, program⟩, [], [], ?_⟩⟩
    · rw [tokenize_eq, whole, Outlook.behind, List.append_nil]
      rfl
    · exact ⟨follows_nil, rfl, rfl⟩

/-- A token that an error is about cannot come after the tokens before it. -/
theorem exists_token_of_parse (failed : parse maxDepth text = .error e) (ofToken : e.OfToken) :
    ∃ t rest, (Scanner.ofText text).ahead.1 = tokensBefore text e.position ++ t :: rest ∧
      t.position = e.position ∧ ∀ more f,
        ¬ Program maxDepth ((tokensBefore text e.position ++ [t]).map Token.lexeme ++ more) f := by
  obtain ⟨c, whole, raises, -, refuted⟩ := exists_outlook_of_parse failed
  match c, raises with
  | ⟨[], .ok _⟩, ⟨_, same⟩ =>
    rw [same] at ofToken
    exact ofToken.elim
  | ⟨[], .error _⟩, same =>
    rw [same] at ofToken
    exact ofToken.elim
  | ⟨t :: rest, _⟩, raises =>
    refine ⟨t, rest, congrArg Outlook.tokens whole, raises.2.symm, fun more f program => ?_⟩
    refine refuted _ ⟨⟨f, program⟩, [], t.lexeme :: more, follows_nil, ?_, more, rfl⟩
    simp

/-- The tokens behind the one that an error is about have no influence on the error. -/
theorem parse_congr {text' : String} {t : Token} (failed : parse maxDepth text = .error e)
    (place : t.position = e.position)
    (begins : tokensBefore text e.position ++ [t] <+: (Scanner.ofText text).ahead.1)
    (begins' : tokensBefore text e.position ++ [t] <+: (Scanner.ofText text').ahead.1) :
    parse maxDepth text' = .error e := by
  obtain ⟨c, whole, past⟩ := Scanner.exists_past_of_isPrefix begins
  obtain ⟨c', whole', past'⟩ := Scanner.exists_past_of_isPrefix begins'
  have agrees : (Parser.ofText maxDepth text).Agrees t.position.offset
      (Parser.ofText maxDepth text') :=
    ⟨Scanner.agrees_of_behind whole whole' past past', rfl, rfl, rfl⟩
  have alike := (Parsing.local_program _).agrees _ _ agrees _ _
    (Parser.outcome_program _ (Nat.le_max_left ..))
    (Parser.outcome_program _ (Nat.le_max_right ..))
  have failed' : (Parser.ofText maxDepth text).program =
      (.error e, (Parser.ofText maxDepth text).program.2) :=
    Prod.ext (parse_eq_error_iff.mp failed) rfl
  rw [failed'] at alike
  exact parse_eq_error_iff.mpr (alike.eq_error (place ▸ Nat.le_refl _))

/-! ### The place of an error -/

/-- A text is said to end too early exactly if it falls into tokens that are the beginning of a
longer program. -/
theorem unexpectedEnd_iff (failed : parse maxDepth text = .error e) :
    (∃ expected position, e = .unexpectedEnd expected position) ↔
      ∃ ts last, tokenize text = .ok (ts ++ [last]) ∧ last.kind = .finish ∧
        ∃ more f, more ≠ [] ∧ Program maxDepth (ts.map Token.lexeme ++ more) f := by
  constructor
  · rintro ⟨expected, position, rfl⟩
    obtain ⟨⟨last, tokens, finish, -⟩, noProgram⟩ := tokenize_of_unexpectedEnd failed
    obtain ⟨-, -, -, ⟨more, f, program⟩, -⟩ := exists_outlook_of_parse failed
    refine ⟨_, last, tokens, finish, more, f, ?_, program⟩
    rintro rfl
    rw [List.append_nil] at program
    exact noProgram f program
  · rintro ⟨ts, last, tokens, -, more, f, -, program⟩
    rcases e.unclosedQuote_or_unexpectedEnd_or_ofToken with ⟨fault, rfl⟩ | atEnd | ofToken
    · rw [tokenize_of_unclosedQuote failed] at tokens
      cases tokens
    · exact atEnd
    · obtain ⟨t, rest, whole, -, refuted⟩ := exists_token_of_parse failed ofToken
      obtain ⟨-, same⟩ := Scanner.tokens_eq_ok_iff.mp tokens
      obtain ⟨rfl, -⟩ := List.append_inj' same rfl
      refine absurd program ?_
      rw [whole]
      simpa using refuted (rest.map Token.lexeme ++ more) f

/-- An error names the leftmost place where a text ceases to be the beginning of a program. The
tokens before it can be continued to a program. An unclosed quote is the one that the scanner finds;
where the text ends too early, its tokens are no program as they are; and a token that is out of
place cannot come next, whatever stands behind it. So a text ends too early exactly if its tokens
are the beginning of a longer program. -/
theorem parse_error_leftmost (maxDepth : Nat) (text : String) (e : ParseError)
    (failed : parse maxDepth text = .error e) :
    (∃ more f, Program maxDepth ((tokensBefore text e.position).map Token.lexeme ++ more) f) ∧
      (∀ fault, e = .unclosedQuote fault → tokenize text = .error fault) ∧
      (∀ expected position, e = .unexpectedEnd expected position →
        (∃ last, tokenize text = .ok (tokensBefore text position ++ [last]) ∧
          last.kind = .finish ∧ last.position = position) ∧
        ∀ f, ¬ Program maxDepth ((tokensBefore text position).map Token.lexeme) f) ∧
      (e.OfToken → ∃ t rest,
        (Scanner.ofText text).ahead.1 = tokensBefore text e.position ++ t :: rest ∧
        t.position = e.position ∧
        (∀ more f, ¬ Program maxDepth
          ((tokensBefore text e.position ++ [t]).map Token.lexeme ++ more) f) ∧
        ∀ text', tokensBefore text e.position ++ [t] <+: (Scanner.ofText text').ahead.1 →
          parse maxDepth text' = .error e) ∧
      ((∃ expected position, e = .unexpectedEnd expected position) ↔
        ∃ ts last, tokenize text = .ok (ts ++ [last]) ∧ last.kind = .finish ∧
          ∃ more f, more ≠ [] ∧ Program maxDepth (ts.map Token.lexeme ++ more) f) := by
  refine ⟨?_, ?_, ?_, fun ofToken => ?_, unexpectedEnd_iff failed⟩
  · obtain ⟨-, -, -, viable, -⟩ := exists_outlook_of_parse failed
    exact viable
  · rintro fault rfl
    exact tokenize_of_unclosedQuote failed
  · rintro expected position rfl
    exact tokenize_of_unexpectedEnd failed
  · obtain ⟨t, rest, whole, place, refuted⟩ := exists_token_of_parse failed ofToken
    refine ⟨t, rest, whole, place, refuted, fun text' begins => ?_⟩
    refine parse_congr failed place ⟨rest, ?_⟩ begins
    rw [whole, List.append_assoc]
    rfl

/-- A name between brackets: the bracket could have gone on, but not with the name, and whatever
else the text has behind the name, the error is the same. -/
theorem parse_error_leftmost_bracket :
    parse defaultMaxDepth "[x]" =
        .error (.unexpectedToken ⟨.text, "x", ⟨1, 2, 1⟩⟩ .bracketItem) ∧
      (∃ more f, Program defaultMaxDepth (⟨.leftBracket, "["⟩ :: more) f) ∧
      (∀ more f, ¬ Program defaultMaxDepth (⟨.leftBracket, "["⟩ :: ⟨.text, "x"⟩ :: more) f) ∧
      parse defaultMaxDepth "[x | \"y" =
        .error (.unexpectedToken ⟨.text, "x", ⟨1, 2, 1⟩⟩ .bracketItem) := by
  have failed : parse defaultMaxDepth "[x]" =
      .error (.unexpectedToken ⟨.text, "x", ⟨1, 2, 1⟩⟩ .bracketItem) := by
    have found : ((parse defaultMaxDepth "[x]").map fun _ => ()) =
        .error (.unexpectedToken ⟨.text, "x", ⟨1, 2, 1⟩⟩ .bracketItem) := by decide +kernel
    cases parsed : parse defaultMaxDepth "[x]" with
    | ok f =>
      rw [parsed] at found
      cases found
    | error e =>
      rw [parsed] at found
      cases found
      rfl
  have before : tokensBefore "[x]" ⟨1, 2, 1⟩ = [⟨.leftBracket, "[", ⟨1, 1, 0⟩⟩] := by decide +kernel
  have ahead : (Scanner.ofText "[x]").ahead.1 = [⟨.leftBracket, "[", ⟨1, 1, 0⟩⟩,
      ⟨.text, "x", ⟨1, 2, 1⟩⟩, ⟨.rightBracket, "]", ⟨1, 3, 2⟩⟩] := by decide +kernel
  obtain ⟨viable, -, -, atToken, -⟩ := parse_error_leftmost defaultMaxDepth "[x]" _ failed
  obtain ⟨t, rest, whole, -, refuted, unmoved⟩ := atToken trivial
  simp only [ParseError.position, before] at viable whole refuted unmoved
  rw [ahead] at whole
  obtain ⟨-, rfl, -⟩ := whole
  exact ⟨failed, viable, refuted, unmoved _ (by decide +kernel)⟩

end Filter

end TreeQuery
