import TreeQuery.Proofs.Decimal.Numeral
import TreeQuery.Proofs.Token.Outlook

/-!
# Nothing of a text is lost

Up to its carriage returns, a text is made of its tokens, one after the other, with nothing but
blanks around them. What a token takes of the text is told by the token and by what follows it:
punctuation stands alone unless it is a point inside of a number, and a run goes on as far as it
can. Quotes come in pairs, so there is a fault exactly if their number is odd, and it is the last
one that is not closed.

## Main definitions

* `Token.spelling` — the characters of a token
* `Token.Stands` — a token in front of what follows it
* `Laid` — tokens, one after the other with blanks between them, in front of what follows
* `Scanner.calls` — what a scanner gives when it is asked again and again

## Main statements

* `Scanner.exists_laid` — the tokens ahead of a scanner, and what is left behind them
* `Scanner.calls_eq` — behind the tokens and the fault there is only the end
* `tokenize_lossless` — texts with an even and with an odd number of quotes
-/

namespace TreeQuery

open Spelling

/-- The characters of a token as they stand in a text. -/
def Token.spelling (t : Token) : List Char :=
  match t.kind with
  | .quoted => '"' :: (t.text.toList ++ ['"'])
  | _ => t.text.toList

/-- The first of the characters is a digit. -/
def DigitFirst (cs : List Char) : Prop := ∃ d ∈ cs.head?, d.isDigit

/-- A run in front of `rest`. -/
structure Spelling.IsWord (run rest : List Char) : Prop where
  nonempty : run ≠ []
  solid : ∀ c ∈ run, isBlank c = false ∧ c ≠ '"'
  /-- The only punctuation in it is a point between digits, with nothing but digits before it. -/
  inner : ∀ before c after, run = before ++ c :: after → (TokenKind.ofChar? c).isSome →
    c = '.' ∧ before ≠ [] ∧ (∀ d ∈ before, d.isDigit) ∧ DigitFirst after
  /-- It ends in front of a blank, a quote or punctuation that does not belong to it. -/
  maximal : ∀ c more, rest = c :: more → isBlank c ∨ c = '"' ∨
    (TokenKind.ofChar? c).isSome ∧ ¬ (c = '.' ∧ (∀ d ∈ run, d.isDigit) ∧ DigitFirst more)

/-- The characters of `rest` follow the token. -/
inductive Token.Stands (rest : List Char) : Token → Prop
  | punctuation {c : Char} {kind : TokenKind} (position : Position)
      (isPunctuation : TokenKind.ofChar? c = some kind) :
      Stands rest ⟨kind, String.singleton c, position⟩
  | quoted {inner : List Char} (position : Position) (verbatim : '"' ∉ inner) :
      Stands rest ⟨.quoted, String.ofList inner, position⟩
  | run {run : List Char} {kind : TokenKind} (position : Position) (isWord : IsWord run rest)
      (number : kind = .number ∧ (∃ d, Decimal.Denotes run d) ∨
        kind = .text ∧ ¬ ∃ d, Decimal.Denotes run d) :
      Stands rest ⟨kind, String.ofList run, position⟩

/-- The characters begin with tokens, blanks in front of each of them. -/
inductive Laid (rest : List Char) : List Char → List Token → Prop
  | nil : Laid rest rest []
  | cons {blanks cs : List Char} {t : Token} {ts : List Token} (areBlank : ∀ c ∈ blanks, isBlank c)
      (stands : t.Stands cs) (others : Laid rest cs ts) :
      Laid rest (blanks ++ (t.spelling ++ cs)) (t :: ts)

theorem TokenKind.ne_quoted_of_ofChar? {c : Char} {kind : TokenKind}
    (h : TokenKind.ofChar? c = some kind) : kind ≠ .quoted := by
  rintro rfl
  have := (not_isName_of_ofChar? h).1
  cases this

/-! ### Runs -/

/-- Digits with a point between them are a numeral, and nothing else is. -/
theorem isNumeral_iff {cs : List Char} : isNumeral cs ↔ ∃ d, Decimal.Denotes cs d := by
  refine ⟨fun numeral => ?_, fun ⟨_, denotes⟩ => denotes.isNumeral⟩
  have parts : cs.takeWhile Char.isDigit ++ cs.dropWhile Char.isDigit = cs :=
    List.takeWhile_append_dropWhile
  have digits := List.all_eq_true.mp (List.all_takeWhile : (cs.takeWhile Char.isDigit).all _)
  simp only [isNumeral, Bool.and_eq_true, Bool.not_eq_true', List.isEmpty_eq_false_iff] at numeral
  obtain ⟨nonempty, behind⟩ := numeral
  split at behind
  · next nothing =>
    rw [nothing, List.append_nil] at parts
    rw [← parts]
    exact ⟨_, .whole nonempty digits⟩
  · next fraction point =>
    simp only [Bool.and_eq_true, Bool.not_eq_true', List.isEmpty_eq_false_iff,
      List.all_eq_true] at behind
    rw [← parts, point]
    exact ⟨_, .fraction nonempty digits behind.1 behind.2⟩
  · cases behind

theorem Spelling.solid_of_isRunChar {c : Char} (h : isRunChar c) :
    isBlank c = false ∧ c ≠ '"' ∧ TokenKind.ofChar? c = none := by
  simp only [isRunChar, Bool.and_eq_true, Bool.not_eq_true', decide_eq_true_eq,
    Option.isNone_iff_eq_none] at h
  exact ⟨h.1.1, h.1.2, h.2⟩

/-- What does not belong to a run on its own account is a blank, a quote or punctuation. -/
theorem Spelling.cases_of_not_isRunChar {c : Char} (h : isRunChar c = false) :
    isBlank c ∨ c = '"' ∨ (TokenKind.ofChar? c).isSome := by
  simp only [isRunChar, Bool.and_eq_false_iff, Bool.not_eq_false', decide_eq_false_iff_not,
    not_not, Option.isNone_eq_false_iff] at h
  exact or_assoc.mp h

/-- Between characters of runs, a point is found at one place only. -/
theorem Spelling.eq_point {whole digits before after : List Char} {c : Char}
    (isWhole : ∀ d ∈ whole, isRunChar d) (members : ∀ d ∈ digits, isRunChar d)
    (same : whole ++ '.' :: digits = before ++ c :: after) (other : ¬ isRunChar c) :
    c = '.' ∧ before = whole ∧ after = digits := by
  induction whole generalizing before with
  | nil =>
    cases before with
    | nil =>
      obtain ⟨rfl, rfl⟩ := List.cons.inj same
      exact ⟨rfl, rfl, rfl⟩
    | cons first before =>
      have mem : c ∈ digits := by
        rw [(List.cons.inj same).2]
        simp
      exact absurd (members c mem) other
  | cons d whole ih =>
    obtain ⟨here, others⟩ := List.forall_mem_cons.mp isWhole
    cases before with
    | nil =>
      obtain ⟨rfl, -⟩ := List.cons.inj same
      exact absurd here other
    | cons first before =>
      obtain ⟨rfl, same'⟩ := List.cons.inj same
      obtain ⟨rfl, rfl, rfl⟩ := ih others same'
      exact ⟨rfl, rfl, rfl⟩

/-- A run of the scanner, said without looking at its characters one by one. -/
theorem Spelling.IsRun.isWord {run rest : List Char} (h : IsRun run rest) : IsWord run rest := by
  cases h with
  | plain nonempty members stops apart =>
    refine ⟨nonempty, fun c mem => ?_, ?_, ?_⟩
    · obtain ⟨noBlank, noQuote, -⟩ := solid_of_isRunChar (members c mem)
      exact ⟨noBlank, noQuote⟩
    · rintro before c after rfl isPunctuation
      have none := (solid_of_isRunChar (members c (by simp))).2.2
      rw [none] at isPunctuation
      cases isPunctuation
    · rintro c more rfl
      refine (cases_of_not_isRunChar (stops c rfl)).imp_right (Or.imp_right fun isSome => ?_)
      refine ⟨isSome, ?_⟩
      rintro ⟨rfl, digits, d, first, isDigit⟩
      obtain ⟨more', rfl⟩ := List.head?_eq_some_iff.mp first
      rw [apart (List.all_eq_true.mpr digits) d more' rfl] at isDigit
      cases isDigit
  | @fraction whole digits _ d nonempty isWhole digit members stops =>
    have runChar : ∀ c ∈ d :: digits, isRunChar c :=
      List.forall_mem_cons.mpr ⟨isRunChar_of_isDigit digit, members⟩
    refine ⟨by simp, fun c mem => ?_, ?_, ?_⟩
    · rcases List.mem_append.mp mem with mem | mem
      · exact ⟨not_isBlank_of_isDigit (isWhole c mem),
          (solid_of_isRunChar (isRunChar_of_isDigit (isWhole c mem))).2.1⟩
      · rcases List.mem_cons.mp mem with rfl | mem
        · exact ⟨by decide, by decide⟩
        · obtain ⟨noBlank, noQuote, -⟩ := solid_of_isRunChar (runChar c mem)
          exact ⟨noBlank, noQuote⟩
    · -- Of all the characters, only the point is punctuation.
      intro before c after same isPunctuation
      have noRunChar : ¬ isRunChar c := by
        intro h
        rw [(solid_of_isRunChar h).2.2] at isPunctuation
        cases isPunctuation
      obtain ⟨rfl, rfl, rfl⟩ :=
        eq_point (fun c mem => isRunChar_of_isDigit (isWhole c mem)) runChar same noRunChar
      exact ⟨rfl, nonempty, isWhole, d, rfl, digit⟩
    · rintro c more rfl
      refine (cases_of_not_isRunChar (stops c rfl)).imp_right (Or.imp_right fun isSome => ?_)
      refine ⟨isSome, ?_⟩
      rintro ⟨-, isDigits, -⟩
      have point := isDigits '.' (by simp)
      cases point

/-! ### Lexemes -/

/-- The characters that stand for a lexeme are those of its tokens. -/
theorem Spelling.Forms.eq_spelling {rest own : List Char} {l : Lexeme} (h : Forms rest own l)
    (position : Position) : own = (Token.mk l.kind l.text position).spelling := by
  cases h with
  | @punctuation c kind isPunctuation =>
    have noQuote : kind ≠ .quoted := TokenKind.ne_quoted_of_ofChar? isPunctuation
    cases kind <;> first | exact absurd rfl noQuote | simp [Token.spelling]
  | quoted verbatim => simp [Token.spelling]
  | run isRun => cases isNumeral own <;> simp [Token.spelling]

/-- What stands for a lexeme stands there as a token. -/
theorem Spelling.Forms.stands {rest own : List Char} {l : Lexeme} (h : Forms rest own l)
    (position : Position) : (Token.mk l.kind l.text position).Stands rest := by
  cases h with
  | punctuation isPunctuation => exact .punctuation position isPunctuation
  | quoted verbatim => exact .quoted position verbatim
  | run isRun =>
    refine .run position isRun.isWord ?_
    cases numeral : isNumeral own with
    | true => exact .inl ⟨rfl, isNumeral_iff.mp numeral⟩
    | false =>
      refine .inr ⟨rfl, fun denotes => ?_⟩
      rw [isNumeral_iff.mpr denotes] at numeral
      cases numeral

/-! ### The tokens ahead of a scanner -/

namespace Scanner

variable {s : Scanner} {t : Token} {fault : UnclosedQuote}

/-- What is taken for a token: blanks, the token itself, and no more. -/
theorem Gives.exists_spelling {given : Except UnclosedQuote Token × Scanner} (gives : s.Gives given)
    (h : given.1 = .ok t) (inner : t.kind ≠ .finish) :
    ∃ blanks taken, s.rest = blanks ++ (taken ++ given.2.rest) ∧
      (∀ spot ∈ blanks, isBlank spot.char) ∧ taken.map Spot.char = t.spelling ∧
      t.Stands (given.2.rest.map Spot.char) := by
  obtain ⟨blanks, spot, more, whole, areBlank, -, forms⟩ := gives.exists_forms h inner
  exact ⟨blanks, spot :: more, whole, areBlank, forms.eq_spelling t.position,
    forms.stands t.position⟩

/-- A fault is a quote with no other one behind it. -/
theorem exists_quote_of_error (h : s.next.1 = .error fault) :
    ∃ blanks spot after, s.rest = blanks ++ spot :: after ∧
      (∀ spot ∈ blanks, isBlank spot.char) ∧ spot.char = '"' ∧ (∀ spot ∈ after, spot.char ≠ '"') ∧
      spot.position = fault.position ∧ s.next.2 = { s with rest := [] } := by
  unfold next at h ⊢
  split at h
  · cases h
  · next spot after found =>
    obtain ⟨blanks, whole, areBlank⟩ := exists_areBlank found
    split at h
    · next opens =>
      dsimp only at h
      split at h
      · next nothing =>
        cases h
        refine ⟨blanks, spot, after, whole, areBlank, opens, ?_, rfl, ?_⟩
        · simpa using List.dropWhile_eq_nil_iff.mp nothing
        · simp only [if_pos opens]
      · cases h
    · split at h <;> cases h

/-- The tokens ahead are laid out in front of blanks, or of a quote that is not closed. -/
theorem exists_laid (s : Scanner) : ∃ front tail, s.rest = front ++ tail ∧
    Laid (tail.map Spot.char) (s.rest.map Spot.char) s.ahead.1 ∧
    (s.ahead.2 = none ∧ (∀ spot ∈ tail, isBlank spot.char) ∨
      ∃ blanks spot after, tail = blanks ++ spot :: after ∧ (∀ spot ∈ blanks, isBlank spot.char) ∧
        spot.char = '"' ∧ (∀ spot ∈ after, spot.char ≠ '"') ∧
        s.ahead.2 = some ⟨spot.position⟩) := by
  -- The tokens ahead are found one by one, and each of them takes characters.
  induction h : s.rest.length using Nat.strongRecOn generalizing s with
  | _ length ih =>
    subst h
    cases taken : s.next.1 with
    | error fault =>
      obtain ⟨blanks, spot, after, whole, areBlank, opens, none, place, -⟩ :=
        exists_quote_of_error taken
      rw [ahead_of_error taken]
      refine ⟨[], s.rest, rfl, .nil, .inr ⟨blanks, spot, after, whole, areBlank, opens, none, ?_⟩⟩
      rw [place]
    | ok t =>
      by_cases last : t.kind = .finish
      · have nothing := (s.gives_next.eq_finishToken taken last).1
        rw [ahead_of_finish taken last]
        exact ⟨[], s.rest, rfl, .nil, .inl ⟨rfl, List.dropWhile_eq_nil_iff.mp nothing⟩⟩
      · obtain ⟨blanks, own, whole, areBlank, spelled, stands⟩ :=
          s.gives_next.exists_spelling taken last
        obtain ⟨front, tail, whole', laid, ends⟩ := ih _ (length_next_lt taken last) s.next.2 rfl
        rw [ahead_of_ok taken last]
        refine ⟨blanks ++ (own ++ front), tail, by rw [whole, whole']; simp, ?_, ends⟩
        rw [whole, List.map_append, List.map_append, spelled]
        exact .cons (by simpa using areBlank) stands laid

/-! ### Asking again and again -/

/-- What the first so many calls give. -/
def calls : Nat → Scanner → List (Except UnclosedQuote Token)
  | 0, _ => []
  | n + 1, s => s.next.1 :: calls n s.next.2

/-- Where nothing is left, there is only the end. -/
theorem calls_of_nil (nothing : s.rest = []) (n : Nat) :
    calls n s = List.replicate n (.ok s.finishToken) := by
  induction n with
  | zero => rfl
  | succ n ih =>
    have stays : s.next = (.ok s.finishToken, s) := by
      obtain ⟨_, finish⟩ := s
      subst nothing
      rfl
    rw [calls, stays, ih, List.replicate_succ]

/-- The calls give the tokens ahead, then the end or the fault in its place, and then nothing but
the end. -/
theorem calls_eq (s : Scanner) (n : Nat) : calls (s.ahead.1.length + 1 + n) s =
    s.ahead.1.map .ok ++
      ((s.ahead.2.elim (.ok s.finishToken) .error) :: List.replicate n (.ok s.finishToken)) := by
  induction h : s.rest.length using Nat.strongRecOn generalizing s with
  | _ length ih =>
    subst h
    cases taken : s.next.1 with
    | error fault =>
      obtain ⟨-, -, -, -, -, -, -, -, left⟩ := exists_quote_of_error taken
      rw [ahead_of_error taken, List.length_nil, Nat.zero_add, Nat.add_comm, calls, taken, left,
        calls_of_nil rfl]
      rfl
    | ok t =>
      by_cases last : t.kind = .finish
      · obtain ⟨nothing, rfl⟩ := s.gives_next.eq_finishToken taken last
        have left : s.next.2 = { s with rest := [] } := by rw [next, nothing]
        rw [ahead_of_finish taken last, List.length_nil, Nat.zero_add, Nat.add_comm, calls, taken,
          left, calls_of_nil rfl]
        rfl
      · have same : s.next.2.finishToken = s.finishToken := by
          rw [finishToken, finishToken, s.gives_next.finish_eq]
        have rest := ih _ (length_next_lt taken last) s.next.2 rfl
        rw [same] at rest
        rw [ahead_of_ok taken last, List.length_cons, List.map_cons, List.cons_append, ← rest,
          Nat.add_right_comm, Nat.add_right_comm _ 1 n, calls, taken, Nat.add_right_comm]

end Scanner

/-! ### Quotes -/

/-- A token has no quote, or two of them. -/
theorem Token.Stands.count_spelling {t : Token} {rest : List Char} (h : t.Stands rest) :
    Even (t.spelling.count '"') := by
  have none (cs : List Char) {kind : TokenKind} {position : Position} (other : kind ≠ .quoted)
      (absent : '"' ∉ cs) :
      Even ((Token.mk kind (String.ofList cs) position).spelling.count '"') := by
    have plain : (Token.mk kind (String.ofList cs) position).spelling = cs := by
      cases kind <;> first | exact absurd rfl other | simp [spelling]
    rw [plain, List.count_eq_zero.mpr absent]
    exact Even.zero
  cases h with
  | @punctuation c kind position isPunctuation =>
    refine none [c] (TokenKind.ne_quoted_of_ofChar? isPunctuation) ?_
    simpa [eq_comm] using (solid_of_ofChar? isPunctuation).2
  | quoted position verbatim =>
    simp [spelling, List.count_eq_zero.mpr verbatim]
  | run position isWord number =>
    refine none _ ?_ fun mem => (isWord.solid _ mem).2 rfl
    rcases number with ⟨rfl, -⟩ | ⟨rfl, -⟩ <;> decide

theorem count_quotes_of_blank {cs : List Char} (areBlank : ∀ c ∈ cs, isBlank c) :
    cs.count '"' = 0 := by
  refine List.count_eq_zero.mpr fun mem => ?_
  have blank := areBlank _ mem
  have solid : isBlank '"' = false := by decide
  rw [solid] at blank
  cases blank

/-- Tokens do not change whether the number of quotes is even. -/
theorem Laid.even_iff {rest cs : List Char} {ts : List Token} (h : Laid rest cs ts) :
    Even (cs.count '"') ↔ Even (rest.count '"') := by
  induction h with
  | nil => rfl
  | cons areBlank stands _ ih =>
    rw [List.count_append, List.count_append, count_quotes_of_blank areBlank, Nat.zero_add,
      Nat.even_add, ih]
    simp [stands.count_spelling]

/-- Carriage returns are no quotes. -/
theorem count_seen (text : String) : (seen text).count '"' = text.toList.count '"' :=
  List.count_filter (by decide)

/-! ### Places -/

/-- Where a character was located, it stands in the text. -/
theorem exists_split_of_locateFrom {p : Position} {cs : List Char} {front after : List Spot}
    {spot : Spot} (h : (locateFrom p cs).1 = front ++ spot :: after) :
    ∃ before behind, cs = before ++ spot.char :: behind ∧
      spot.position = before.foldl Position.after p ∧
      behind.filter (· ≠ '\r') = after.map Spot.char := by
  induction cs generalizing p front with
  | nil => simp [locateFrom] at h
  | cons c cs ih =>
    by_cases isReturn : c = '\r'
    · simp only [locateFrom, if_pos isReturn] at h
      obtain ⟨before, behind, rfl, place, rest⟩ := ih h
      exact ⟨c :: before, behind, rfl, place, rest⟩
    · simp only [locateFrom, if_neg isReturn] at h
      cases front with
      | nil =>
        obtain ⟨rfl, rfl⟩ := List.cons.inj h
        exact ⟨[], cs, rfl, rfl, (map_char_locateFrom _ cs).symm⟩
      | cons first front =>
        obtain ⟨before, behind, rfl, place, rest⟩ := ih (List.cons.inj h).2
        exact ⟨c :: before, behind, rfl, place, rest⟩

theorem offset_foldl_after (p : Position) (cs : List Char) :
    (cs.foldl Position.after p).offset = p.offset + cs.length := by
  induction cs generalizing p with
  | nil => rfl
  | cons c cs ih =>
    rw [List.foldl_cons, ih, Position.offset_after, List.length_cons]
    omega

/-! ### Whole texts -/

/-- A text falls into tokens unless the number of its quotes is odd. Its characters, carriage
returns aside, are those of the tokens with blanks around them. When the quotes are even, blanks are
all that follows the last token, and the end of the text comes after it, as often as one asks. When
they are odd, what follows the last token is the last quote, perhaps behind blanks. It is the fault;
it stands behind as many characters as its offset says, and only the end of the text comes after
it. -/
theorem tokenize_lossless (text : String) :
    ((∃ fault, tokenize text = .error fault) ↔ Odd (text.toList.count '"')) ∧
    ∃ tokens tail ending, Laid tail (seen text) tokens ∧ (∀ t ∈ tokens, t.kind ≠ .finish) ∧
      (∀ n, (Scanner.ofText text).calls (tokens.length + 1 + n) = tokens.map .ok ++
        ending :: List.replicate n (.ok (Scanner.ofText text).finishToken)) ∧
      (Even (text.toList.count '"') ∧ (∀ c ∈ tail, isBlank c) ∧
          ending = .ok (Scanner.ofText text).finishToken ∧
          tokenize text = .ok (tokens ++ [(Scanner.ofText text).finishToken]) ∨
        Odd (text.toList.count '"') ∧ ∃ fault before behind blanks,
          text.toList = before ++ '"' :: behind ∧ '"' ∉ behind ∧
          fault.position = before.foldl Position.after .start ∧
          fault.position.offset = before.length ∧
          tail = blanks ++ '"' :: behind.filter (· ≠ '\r') ∧ (∀ c ∈ blanks, isBlank c) ∧
          ending = .error fault ∧ tokenize text = .error fault) := by
  have characters : (Scanner.ofText text).rest.map Spot.char = seen text :=
    map_char_locateFrom .start text.toList
  obtain ⟨front, tail, whole, laid, ends⟩ := (Scanner.ofText text).exists_laid
  have parity := laid.even_iff
  rw [characters, count_seen] at parity
  rw [characters] at laid
  have inner : ∀ t ∈ (Scanner.ofText text).ahead.1, t.kind ≠ .finish :=
    Scanner.forall_mem_ahead (fun _ _ _ inner => inner) _
  have calls := (Scanner.ofText text).calls_eq
  have outcome := (Scanner.ofText text).tokens_eq
  simp only [Scanner.outlook] at outcome
  rcases ends with ⟨none, areBlank⟩ | ⟨blanks, spot, after, rfl, areBlank, opens, last, fault⟩
  · have areBlank' : ∀ c ∈ tail.map Spot.char, isBlank c := by simpa using areBlank
    rw [count_quotes_of_blank areBlank'] at parity
    have even : Even (text.toList.count '"') := parity.mpr Even.zero
    rw [none] at calls outcome
    refine ⟨?_, _, _, _, laid, inner, calls, .inl ⟨even, areBlank', rfl, outcome⟩⟩
    have succeeds : ¬ ∃ fault, tokenize text = .error fault := by
      rintro ⟨fault, fails⟩
      cases outcome.symm.trans fails
    simp [succeeds, even]
  · -- What stands behind the last quote stands behind it in the text, too.
    rw [← List.append_assoc] at whole
    obtain ⟨before, behind, split, place, rest⟩ := exists_split_of_locateFrom whole
    rw [opens] at split
    have last' : '"' ∉ after.map Spot.char := by simpa using last
    have last'' : '"' ∉ behind := by
      rw [← rest] at last'
      simpa using last'
    have areBlank' : ∀ c ∈ blanks.map Spot.char, isBlank c := by simpa using areBlank
    rw [List.map_append, List.map_cons, opens, List.count_append, count_quotes_of_blank areBlank',
      List.count_cons_self, List.count_eq_zero.mpr last'] at parity
    have odd : Odd (text.toList.count '"') :=
      Nat.not_even_iff_odd.mp fun even => Nat.not_even_one (parity.mp even)
    rw [fault] at calls outcome
    refine ⟨⟨fun _ => odd, fun _ => ⟨_, outcome⟩⟩, _, _, _, laid, inner, calls,
      .inr ⟨odd, _, before, behind, blanks.map Spot.char, split, last'', place, ?_, ?_, areBlank',
        rfl, outcome⟩⟩
    · rw [place, offset_foldl_after]
      exact Nat.zero_add _
    · rw [List.map_append, List.map_cons, opens, rest]

end TreeQuery
