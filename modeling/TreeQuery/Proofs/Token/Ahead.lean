import TreeQuery.Token.Scanner

/-!
# What lies ahead of a scanner

A scanner is a state; the tokens that it will give are a list, with either the end of the text or an
unclosed quote behind it. Statements about a whole text are statements about this list.

A grammar does not look at positions, so it is about lexemes: tokens without the place where they
stand.

## Main definitions

* `Lexeme`, `Token.lexeme` — tokens apart from their places
* `Scanner.ahead` — the tokens before the end, and the fault that stands in place of the end

## Main statements

* `Scanner.tokens_eq_ok_iff` — a text falls into tokens when no fault lies ahead
-/

namespace TreeQuery

/-- A token apart from the place where it stands. -/
structure Lexeme where
  kind : TokenKind
  text : String
  deriving DecidableEq, Repr

/-- What a token is apart from its place. -/
def Token.lexeme (t : Token) : Lexeme := ⟨t.kind, t.text⟩

@[simp] theorem Token.kind_lexeme (t : Token) : t.lexeme.kind = t.kind := rfl

@[simp] theorem Token.text_lexeme (t : Token) : t.lexeme.text = t.text := rfl

/-- Punctuation is neither a text nor a number nor the end. -/
theorem TokenKind.not_isName_of_ofChar? {c : Char} {kind : TokenKind}
    (h : TokenKind.ofChar? c = some kind) : kind.isName = false ∧ kind ≠ .finish := by
  unfold TokenKind.ofChar? at h
  split at h <;> cases h <;> decide

theorem TokenKind.ne_finish_of_ofChar? {c : Char} {kind : TokenKind}
    (h : TokenKind.ofChar? c = some kind) : kind ≠ .finish :=
  (not_isName_of_ofChar? h).2

theorem TokenKind.ne_number_of_ofChar? {c : Char} {kind : TokenKind}
    (h : TokenKind.ofChar? c = some kind) : kind ≠ .number := by
  rintro rfl
  have := (not_isName_of_ofChar? h).1
  cases this

namespace Scanner

/-- The tokens that come before the end of the text, and the fault in place of the end. -/
def ahead (s : Scanner) : List Token × Option UnclosedQuote :=
  match taken : s.next.1 with
  | .error fault => ([], some fault)
  | .ok t =>
    if last : t.kind = .finish then ([], none)
    else
      have := length_next_lt taken last
      (t :: s.next.2.ahead.1, s.next.2.ahead.2)
termination_by s.rest.length

variable {s : Scanner}

theorem ahead_of_error {fault : UnclosedQuote} (h : s.next.1 = .error fault) :
    s.ahead = ([], some fault) := by
  rw [ahead]
  split
  · next fault' taken =>
    rw [h] at taken
    cases taken
    rfl
  · next t taken =>
    rw [h] at taken
    cases taken

theorem ahead_of_finish {t : Token} (h : s.next.1 = .ok t) (last : t.kind = .finish) :
    s.ahead = ([], none) := by
  rw [ahead]
  split
  · next fault taken =>
    rw [h] at taken
    cases taken
  · next t' taken =>
    rw [h] at taken
    cases taken
    rw [dif_pos last]

theorem ahead_of_ok {t : Token} (h : s.next.1 = .ok t) (inner : t.kind ≠ .finish) :
    s.ahead = (t :: s.next.2.ahead.1, s.next.2.ahead.2) := by
  rw [ahead]
  split
  · next fault taken =>
    rw [h] at taken
    cases taken
  · next t' taken =>
    rw [h] at taken
    cases taken
    rw [dif_neg inner]

/-! ### The next token, by what stands behind the blanks -/

/-- What stands behind the blanks in front of a scanner, what it gives then, and what is left. -/
inductive Gives (s : Scanner) : Except UnclosedQuote Token × Scanner → Prop
  | finish (nothing : s.rest.dropWhile (isBlank ·.char) = []) :
      Gives s (.ok s.finishToken, { s with rest := [] })
  | unclosed {spot : Spot} {rest : List Spot}
      (found : s.rest.dropWhile (isBlank ·.char) = spot :: rest) :
      Gives s (.error ⟨spot.position⟩, { s with rest := [] })
  | quoted {spot closing : Spot} {inner rest : List Spot}
      (found : s.rest.dropWhile (isBlank ·.char) = spot :: (inner ++ closing :: rest))
      (opens : spot.char = '"') (verbatim : ∀ s ∈ inner, s.char ≠ '"')
      (closes : closing.char = '"') :
      Gives s (.ok ⟨.quoted, textOf inner, spot.position⟩, { s with rest })
  | punctuation {spot : Spot} {rest : List Spot} {kind : TokenKind}
      (found : s.rest.dropWhile (isBlank ·.char) = spot :: rest)
      (isPunctuation : TokenKind.ofChar? spot.char = some kind) :
      Gives s (.ok ⟨kind, String.singleton spot.char, spot.position⟩, { s with rest })
  | run {spot : Spot} {rest run rest' : List Spot}
      (found : s.rest.dropWhile (isBlank ·.char) = spot :: rest) (solid : isRunChar spot.char)
      (split : splitRun (spot :: rest) = (run, rest')) :
      Gives s (.ok ⟨if isNumeral (run.map Spot.char) then .number else .text, textOf run,
        spot.position⟩, { s with rest := rest' })

theorem gives_next (s : Scanner) : s.Gives s.next := by
  have solid := List.head?_dropWhile_not (fun spot : Spot => isBlank spot.char) s.rest
  unfold next
  split
  · next nothing => exact .finish nothing
  · next spot rest found =>
    rw [found] at solid
    split
    · next opens =>
      have inside := List.all_takeWhile (p := fun s : Spot => decide (s.char ≠ '"')) (l := rest)
      have stops := List.head?_dropWhile_not (fun s : Spot => decide (s.char ≠ '"')) rest
      have parts := List.takeWhile_append_dropWhile (p := fun s : Spot => decide (s.char ≠ '"'))
        (l := rest)
      dsimp only
      split
      · exact .unclosed found
      · next closing rest' behind =>
        rw [behind] at stops parts
        rw [← parts] at found
        exact .quoted found opens (by simpa using List.all_eq_true.mp inside) (by simpa using stops)
    · next noQuote =>
      split
      · next kind isPunctuation => exact .punctuation found isPunctuation
      · next noPunctuation =>
        have belongs : isRunChar spot.char := by
          simp only [List.head?_cons] at solid
          simp [isRunChar, solid, noQuote, noPunctuation]
        exact .run found belongs rfl

variable {given : Except UnclosedQuote Token × Scanner} {t : Token}

/-- The end of the text stays where it is. -/
theorem Gives.finish_eq (gives : s.Gives given) : given.2.finish = s.finish := by
  cases gives <;> rfl

/-- A run is not the end, whatever it is made of. -/
theorem ne_finish_of_run (numeral : Bool) :
    (if numeral then TokenKind.number else .text) ≠ .finish := by
  cases numeral <;> decide

/-- The only token of that kind is the one at the end of the text. -/
theorem Gives.eq_finishToken (gives : s.Gives given) (h : given.1 = .ok t)
    (last : t.kind = .finish) :
    s.rest.dropWhile (isBlank ·.char) = [] ∧ t = s.finishToken := by
  cases gives with
  | finish nothing =>
    cases h
    exact ⟨nothing, rfl⟩
  | unclosed => cases h
  | quoted =>
    cases h
    cases last
  | punctuation _ isPunctuation =>
    cases h
    exact absurd last (TokenKind.ne_finish_of_ofChar? isPunctuation)
  | run =>
    cases h
    exact absurd last (ne_finish_of_run _)

/-- The text of a number token is a numeral. -/
theorem Gives.isNumeral (gives : s.Gives given) (h : given.1 = .ok t) (kind : t.kind = .number) :
    isNumeral t.text.toList := by
  cases gives with
  | finish =>
    cases h
    cases kind
  | unclosed => cases h
  | quoted =>
    cases h
    cases kind
  | punctuation _ isPunctuation =>
    cases h
    exact absurd kind (TokenKind.ne_number_of_ofChar? isPunctuation)
  | @run _ _ run =>
    cases h
    by_cases numeral : TreeQuery.isNumeral (run.map Spot.char) = true
    · simp only [textOf, String.toList_ofList]
      exact numeral
    · rw [if_neg numeral] at kind
      cases kind

/-! ### All tokens -/

/-- A text falls into tokens when no fault lies ahead; the end is a token of its own. -/
theorem tokens_eq_ok_iff {s : Scanner} {ts : List Token} :
    s.tokens = .ok ts ↔ s.ahead.2 = none ∧ ts = s.ahead.1 ++ [s.finishToken] := by
  induction h : s.rest.length using Nat.strongRecOn generalizing s ts with
  | _ length ih =>
    subst h
    rw [tokens]
    split
    · next fault taken =>
      simp [ahead_of_error taken]
    · next t taken =>
      by_cases last : t.kind = .finish
      · have same := (s.gives_next.eq_finishToken taken last).2
        rw [dif_pos last, ahead_of_finish taken last, same]
        simp [eq_comm]
      · have shorter := length_next_lt taken last
        have rest {ts : List Token} : s.next.2.tokens = .ok ts ↔
            s.next.2.ahead.2 = none ∧ ts = s.next.2.ahead.1 ++ [s.next.2.finishToken] :=
          ih _ shorter rfl
        have same : s.next.2.finishToken = s.finishToken := by
          rw [finishToken, finishToken, s.gives_next.finish_eq]
        rw [same] at rest
        rw [dif_neg last, ahead_of_ok taken last]
        cases inner : s.next.2.tokens with
        | error fault =>
          have not_none : s.next.2.ahead.2 ≠ none := by
            intro none
            have := rest.mpr ⟨none, rfl⟩
            rw [inner] at this
            cases this
          simp [Except.map, not_none]
        | ok us =>
          obtain ⟨none, rfl⟩ := rest.mp inner
          simp [Except.map, none, eq_comm]

/-- What holds of every token that a scanner can give holds of all that lie ahead. -/
theorem forall_mem_ahead {property : Token → Prop}
    (each : ∀ (s : Scanner) (t : Token), s.next.1 = .ok t → t.kind ≠ .finish → property t)
    (s : Scanner) : ∀ t ∈ s.ahead.1, property t := by
  induction h : s.rest.length using Nat.strongRecOn generalizing s with
  | _ length ih =>
    subst h
    intro t mem
    cases taken : s.next.1 with
    | error fault =>
      rw [ahead_of_error taken] at mem
      cases mem
    | ok first =>
      by_cases last : first.kind = .finish
      · rw [ahead_of_finish taken last] at mem
        cases mem
      · rw [ahead_of_ok taken last] at mem
        rcases List.mem_cons.mp mem with rfl | mem
        · exact each s t taken last
        · exact ih _ (length_next_lt taken last) s.next.2 rfl t mem

end Scanner

end TreeQuery
