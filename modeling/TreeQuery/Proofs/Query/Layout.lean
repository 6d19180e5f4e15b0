import TreeQuery.Proofs.Grammar.Resemblance
import TreeQuery.Proofs.Token.Respacing
import TreeQuery.Query

/-!
# The layout of a query does not matter

A parser looks at what tokens are, not at where they stand; it only hands their places on to errors.
So texts with the same lexemes are parsed alike, and as queries they do the same. Together with what
is known of lexemes and layouts, a query may be laid out in any way.

## Main definitions

* `ParseError.unplaced`, `QueryError.unplaced` — errors apart from their places

## Main statements

* `Filter.parse_of_lexemes` — texts with the same lexemes are parsed alike
* `Query.apply_of_lexemes` — as queries they do the same
* `Query.layout_irrelevant` — both, for texts with further blanks and carriage returns
-/

namespace TreeQuery

/-- The error apart from the place that it names. -/
def ParseError.unplaced : ParseError → ParseError
  | unclosedQuote _ => unclosedQuote ⟨.start⟩
  | unexpectedToken found expected => unexpectedToken { found with position := .start } expected
  | unexpectedEnd expected _ => unexpectedEnd expected .start
  | invalidIndex text _ => invalidIndex text .start
  | invalidNumber text _ => invalidNumber text .start
  | unsupportedOperator text _ => unsupportedOperator text .start
  | tooDeep limit _ => tooDeep limit .start

/-- The failure apart from the place that it names. -/
def QueryError.unplaced : QueryError → QueryError
  | parse e => parse e.unplaced
  | evaluation e => evaluation e

theorem Run.mapError_throw {σ ε ε' α : Type} (f : ε → ε') (e : ε) :
    (throw e : Run σ ε α).mapError f = throw (f e) :=
  rfl

/-- Errors with the same cause are the same apart from their places. -/
theorem ParseError.Resembles.unplaced_eq {place : Position → Position → Prop} {limit : Nat}
    {e e' : ParseError} (same : e.Resembles place limit limit e') : e.unplaced = e'.unplaced := by
  cases same with
  | unexpectedToken expected same =>
    simp only [unplaced, same.kind, same.text]
  | _ => rfl

/-! ### Texts with the same lexemes -/

/-- Any two places. -/
def Anywhere (_ _ : Position) : Prop := True

theorem Token.resembles_of_lexeme {t t' : Token} (same : t'.lexeme = t.lexeme) :
    t.Resembles Anywhere t' := by
  obtain ⟨kind, text⟩ := Lexeme.mk.inj same
  exact ⟨kind, text, trivial⟩

theorem Outlook.resembles_of_lexemes {ts ts' : List Token} {last last' : Token}
    (same : ts'.map Token.lexeme = ts.map Token.lexeme) (ends : last'.lexeme = last.lexeme) :
    (Outlook.mk ts (.ok last)).Resembles Anywhere ⟨ts', .ok last'⟩ := by
  induction ts generalizing ts' with
  | nil =>
    obtain rfl := List.map_eq_nil_iff.mp same
    exact .finish (Token.resembles_of_lexeme ends)
  | cons t ts ih =>
    obtain ⟨t', ts', rfl, first, others⟩ := List.map_eq_cons_iff.mp same
    exact .token (Token.resembles_of_lexeme first) (ih others)

section

variable {text text' : String} {ts ts' : List Token}

/-- Texts with the same lexemes have the same to come, wherever it stands. -/
theorem Scanner.resembles_of_lexemes (tokens : tokenize text = .ok ts)
    (tokens' : tokenize text' = .ok ts') (same : ts'.map Token.lexeme = ts.map Token.lexeme) :
    (ofText text).outlook.Resembles Anywhere (ofText text').outlook := by
  obtain ⟨whole, rfl⟩ := tokens_eq_ok_iff.mp tokens
  obtain ⟨whole', rfl⟩ := tokens_eq_ok_iff.mp tokens'
  rw [List.map_append, List.map_append] at same
  obtain ⟨lexemes, -⟩ := List.append_inj' same rfl
  rw [outlook, outlook, whole, whole']
  exact Outlook.resembles_of_lexemes lexemes rfl

/-- Texts with the same lexemes are parsed alike, apart from the places of errors. -/
theorem Filter.parse_of_lexemes (tokens : tokenize text = .ok ts)
    (tokens' : tokenize text' = .ok ts') (same : ts'.map Token.lexeme = ts.map Token.lexeme)
    (maxDepth : Nat) :
    (parse maxDepth text').mapError ParseError.unplaced =
      (parse maxDepth text).mapError ParseError.unplaced := by
  have resembles : (Parser.ofText maxDepth text).Resembles Anywhere maxDepth maxDepth 0 0
      (Parser.ofText maxDepth text') :=
    ⟨Scanner.resembles_of_lexemes tokens tokens' same, .none, rfl, rfl, rfl, rfl⟩
  have atMost : maxDepth - 0 ≤ maxDepth := Nat.le_refl _
  have alike := Parser.resembles_program atMost resembles
  unfold parse Parser.filter
  generalize (Parser.ofText maxDepth text).program = out at alike ⊢
  generalize (Parser.ofText maxDepth text').program = out' at alike ⊢
  cases alike with
  | value => rfl
  | error same => exact congrArg Except.error same.unplaced_eq.symm
  | tooDeep less => exact absurd less (Nat.lt_irrefl _)

namespace Query

/-- As queries they do the same, with whatever value and from whatever state. -/
theorem apply_of_lexemes (tokens : tokenize text = .ok ts) (tokens' : tokenize text' = .ok ts')
    (same : ts'.map Token.lexeme = ts.map Token.lexeme) (n maxDepth : Nat) (v : Value) :
    (apply n maxDepth text' v).mapError QueryError.unplaced =
      (apply n maxDepth text v).mapError QueryError.unplaced := by
  have alike := Filter.parse_of_lexemes tokens tokens' same maxDepth
  unfold apply
  cases parsed : Filter.parse maxDepth text with
  | ok f =>
    cases parsed' : Filter.parse maxDepth text' with
    | ok f' =>
      rw [parsed, parsed'] at alike
      have same : f' = f := Except.ok.inj alike
      rw [same]
    | error e' =>
      rw [parsed, parsed'] at alike
      cases alike
  | error e =>
    cases parsed' : Filter.parse maxDepth text' with
    | ok f' =>
      rw [parsed, parsed'] at alike
      cases alike
    | error e' =>
      rw [parsed, parsed'] at alike
      have same : e'.unplaced = e.unplaced := Except.error.inj alike
      simp only [Run.mapError_throw, QueryError.unplaced, same]

/-- The layout of a query does not matter. There is a boundary in front of each token, the one at
the end included. However a text is spread out, with further blanks at the boundaries of its tokens
and further carriage returns anywhere, it falls into the same lexemes. Texts with the same lexemes
are parsed alike within any limit, to the same filter or with errors that are equal apart from their
places. So a text that is spread out does the same as a query, with any value and from any state. -/
theorem layout_irrelevant (text : String) (ts : List Token) (tokens : tokenize text = .ok ts) :
    (∀ t ∈ ts, IsBoundary ts (text.toList.take t.position.offset)) ∧
    (∀ text', Spread (IsBoundary ts) [] text.toList text'.toList →
      ∃ ts', tokenize text' = .ok ts' ∧ ts'.map Token.lexeme = ts.map Token.lexeme) ∧
    (∀ text' ts', tokenize text' = .ok ts' → ts'.map Token.lexeme = ts.map Token.lexeme →
      ∀ maxDepth, (Filter.parse maxDepth text').mapError ParseError.unplaced =
        (Filter.parse maxDepth text).mapError ParseError.unplaced) ∧
    ∀ text', Spread (IsBoundary ts) [] text.toList text'.toList → ∀ n maxDepth v,
      (apply n maxDepth text' v).mapError QueryError.unplaced =
        (apply n maxDepth text v).mapError QueryError.unplaced := by
  refine ⟨isBoundary_take tokens, fun text' spread => tokenize_spread tokens spread,
    fun text' ts' tokens' same maxDepth => ?_, fun text' spread n maxDepth v => ?_⟩
  · exact Filter.parse_of_lexemes tokens tokens' same maxDepth
  · obtain ⟨ts', tokens', same⟩ := tokenize_spread tokens spread
    exact apply_of_lexemes tokens tokens' same n maxDepth v

/-- A carriage return inside of a number, in front of the point, and a blank behind the number. -/
theorem layout_irrelevant_number :
    ∃ ts, tokenize "1.5|" = .ok ts ∧
      Spread (IsBoundary ts) [] "1.5|".toList "1\r.5 |".toList ∧
      (∃ ts', tokenize "1\r.5 |" = .ok ts' ∧ ts'.map Token.lexeme = ts.map Token.lexeme) ∧
      (apply 0 64 "1\r.5 |" .null).mapError QueryError.unplaced =
        (apply 0 64 "1.5|" .null).mapError QueryError.unplaced := by
  obtain ⟨ts, tokens, boundary⟩ :
      ∃ ts, tokenize "1.5|" = .ok ts ∧ IsBoundary ts ['1', '.', '5'] := by
    refine ⟨[⟨.number, "1.5", ⟨1, 1, 0⟩⟩, ⟨.pipe, "|", ⟨1, 4, 3⟩⟩, ⟨.finish, "", ⟨1, 5, 4⟩⟩],
      by decide +kernel, ?_⟩
    have ended : (Token.mk .number "1.5" ⟨1, 1, 0⟩).EndsIn ['1', '.', '5'] :=
      ⟨[], ['1', '.', '5'], [], rfl, rfl, by decide⟩
    simp [IsBoundary, ended]
  have spread : Spread (IsBoundary ts) [] "1.5|".toList "1\r.5 |".toList :=
    .keep '1' (.carriageReturn (.keep '.' (.keep '5'
      (.blank (by decide) boundary (.keep '|' .nil)))))
  obtain ⟨-, lexemes, -, queries⟩ := layout_irrelevant "1.5|" ts tokens
  exact ⟨ts, tokens, spread, lexemes _ spread, queries _ spread 0 64 .null⟩

end Query

end

end TreeQuery
