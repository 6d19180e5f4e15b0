import TreeQuery.Filter.Parser
import TreeQuery.Proofs.Token.Outlook

/-!
# Parsers that resemble each other

Two parsers are run side by side. Their tokens are the same but for the places where they stand, and
they count the mappings that are open alike, but one of them may have begun with more of them on its
count. Then they do the same: they give the same filters, or fail with the same cause at places that
belong together. Only where one of them has less room for mappings left than the other, it may fail
because a mapping is too deep for it.

What places have to do with each other is a parameter: they may be equal, so that the statements are
about two limits, or anything, so that they are about two layouts of the same tokens.

## Main definitions

* `Token.Resembles`, `Outlook.Resembles`, `ParseError.Resembles` — the same but for the places
* `ParseError.withLimit` — an error, but for the limit that it names
* `Parser.Resembles` — parsers that are run side by side
* `Parsing.Resembles` — runs that do the same from there

## Main statements

* `Parsing.Resembles.bind`, `Parsing.resembles_next` — one run after the other, and a token taken
* `Parser.resembles_program` — programs are read alike
-/

namespace TreeQuery

/-- The same token, in places that belong together. -/
structure Token.Resembles (place : Position → Position → Prop) (t t' : Token) : Prop where
  kind : t'.kind = t.kind
  text : t'.text = t.text
  position : place t.position t'.position

/-- The same tokens to come, with ends or faults behind them in places that belong together. -/
inductive Outlook.Resembles (place : Position → Position → Prop) : Outlook → Outlook → Prop
  | finish {last last' : Token} (same : last.Resembles place last') :
      Resembles place ⟨[], .ok last⟩ ⟨[], .ok last'⟩
  | fault {fault fault' : UnclosedQuote} (same : place fault.position fault'.position) :
      Resembles place ⟨[], .error fault⟩ ⟨[], .error fault'⟩
  | token {t t' : Token} {ts ts' : List Token} {ending ending' : Except UnclosedQuote Token}
      (same : t.Resembles place t') (rest : Resembles place ⟨ts, ending⟩ ⟨ts', ending'⟩) :
      Resembles place ⟨t :: ts, ending⟩ ⟨t' :: ts', ending'⟩

/-- The same cause, in places that belong together. Where it is about the limit on mappings, each of
the two errors names its own. -/
inductive ParseError.Resembles (place : Position → Position → Prop) (limit limit' : Nat) :
    ParseError → ParseError → Prop
  | unclosedQuote {fault fault' : UnclosedQuote} (same : place fault.position fault'.position) :
      Resembles place limit limit' (.unclosedQuote fault) (.unclosedQuote fault')
  | unexpectedToken {found found' : Token} (expected : Expectation)
      (same : found.Resembles place found') :
      Resembles place limit limit' (.unexpectedToken found expected)
        (.unexpectedToken found' expected)
  | unexpectedEnd {p p' : Position} (expected : Expectation) (same : place p p') :
      Resembles place limit limit' (.unexpectedEnd expected p) (.unexpectedEnd expected p')
  | invalidIndex {p p' : Position} (text : String) (same : place p p') :
      Resembles place limit limit' (.invalidIndex text p) (.invalidIndex text p')
  | invalidNumber {p p' : Position} (text : String) (same : place p p') :
      Resembles place limit limit' (.invalidNumber text p) (.invalidNumber text p')
  | unsupportedOperator {p p' : Position} (text : String) (same : place p p') :
      Resembles place limit limit' (.unsupportedOperator text p) (.unsupportedOperator text p')
  | tooDeep {p p' : Position} (same : place p p') :
      Resembles place limit limit' (.tooDeep limit p) (.tooDeep limit' p')

section

variable {place : Position → Position → Prop} {limit limit' : Nat}

theorem ParseError.Resembles.ofToken {t t' : Token} (same : t.Resembles place t')
    (expected : Expectation) :
    (ofToken t expected).Resembles place limit limit' (ofToken t' expected) := by
  unfold ParseError.ofToken
  rw [same.kind]
  split
  · exact .unexpectedEnd expected same.position
  · exact .unexpectedToken expected same

/-! ### The same places -/

theorem Token.Resembles.eq {t t' : Token} (same : t.Resembles Eq t') : t = t' := by
  obtain ⟨kind, text, position⟩ := same
  cases t
  cases t'
  cases kind
  cases text
  cases position
  rfl

/-- The error with another limit, if it names one. -/
def ParseError.withLimit (limit : Nat) : ParseError → ParseError
  | tooDeep _ p => tooDeep limit p
  | e => e

/-- Errors in the same place with the same cause differ at most in the limit that they name. -/
theorem ParseError.Resembles.eq_withLimit {e e' : ParseError}
    (same : e.Resembles Eq limit limit' e') : e = e'.withLimit limit := by
  cases same with
  | @unclosedQuote fault fault' same =>
    cases fault
    cases fault'
    cases same
    rfl
  | unexpectedToken expected same =>
    rw [same.eq]
    rfl
  | tooDeep same =>
    rw [same]
    rfl
  | unexpectedEnd expected same | invalidIndex text same | invalidNumber text same
  | unsupportedOperator text same =>
    rw [same]
    rfl

/-! ### Outlooks -/

/-- What resembles itself, place by place, does so as a whole. -/
theorem Outlook.resembles_self (refl : ∀ p, place p p) (c : Outlook) : c.Resembles place c := by
  obtain ⟨ts, ending⟩ := c
  induction ts with
  | nil =>
    cases ending with
    | ok last => exact .finish ⟨rfl, rfl, refl _⟩
    | error fault => exact .fault (refl _)
  | cons t ts ih => exact .token ⟨rfl, rfl, refl _⟩ ih

/-- What a scanner gives where the text ends, or at a fault. -/
theorem Scanner.next_of_outlook_nil {s : Scanner} {ending : Except UnclosedQuote Token}
    (h : s.outlook = ⟨[], ending⟩) :
    s.next.1 = ending ∧ ∀ last, ending = .ok last → s.next.2.outlook = s.outlook := by
  cases taken : s.next.1 with
  | error fault =>
    rw [outlook_of_error taken] at h
    cases h
    exact ⟨rfl, nofun⟩
  | ok t =>
    by_cases last : t.kind = .finish
    · have stays := outlook_next_of_finish taken last
      rw [outlook_of_finish taken last] at h
      cases h
      exact ⟨rfl, fun _ _ => stays⟩
    · rw [outlook_of_ok taken last] at h
      cases congrArg Outlook.tokens h

/-- Scanners with outlooks that resemble each other give tokens that do, or faults. -/
theorem Scanner.resembles_next {s s' : Scanner} (h : s.outlook.Resembles place s'.outlook) :
    (∃ t t' u u', s.next = (.ok t, u) ∧ s'.next = (.ok t', u') ∧ t.Resembles place t' ∧
        u.outlook.Resembles place u'.outlook) ∨
      ∃ fault fault' u u', s.next = (.error fault, u) ∧ s'.next = (.error fault', u') ∧
        place fault.position fault'.position := by
  have whole := h
  generalize before : s.outlook = c at h
  generalize before' : s'.outlook = c' at h
  -- Either there is a token ahead of both, or both are at the end, or in front of a fault.
  cases h with
  | @finish last last' same =>
    obtain ⟨taken, stays⟩ := next_of_outlook_nil before
    obtain ⟨taken', stays'⟩ := next_of_outlook_nil before'
    refine .inl ⟨last, last', _, _, Prod.ext taken rfl, Prod.ext taken' rfl, same, ?_⟩
    rw [stays _ rfl, stays' _ rfl]
    exact whole
  | fault same =>
    exact .inr ⟨_, _, _, _, Prod.ext (next_of_outlook_nil before).1 rfl,
      Prod.ext (next_of_outlook_nil before').1 rfl, same⟩
  | @token t t' ts ts' ending ending' same rest =>
    have first : s.outlook = (Outlook.mk ts ending).behind [t] := before
    have first' : s'.outlook = (Outlook.mk ts' ending').behind [t'] := before'
    obtain ⟨taken, later⟩ := next_of_outlook first
    obtain ⟨taken', later'⟩ := next_of_outlook first'
    refine .inl ⟨t, t', _, _, Prod.ext taken rfl, Prod.ext taken' rfl, same, ?_⟩
    rw [later, later']
    exact rest

end

/-- Two parsers side by side: the same tokens are to come, and the second one has `inside` mappings
open within `limit'`, the first one `offset` more within `limit`. -/
structure Parser.Resembles (place : Position → Position → Prop) (limit limit' offset inside : Nat)
    (p p' : Parser) : Prop where
  scanner : p.scanner.outlook.Resembles place p'.scanner.outlook
  handedBack : Option.Rel (Token.Resembles place) p.handedBack p'.handedBack
  depth : p.depth = inside + offset
  depth' : p'.depth = inside
  limits : p.maxDepth = limit ∧ p'.maxDepth = limit'

namespace Parsing

open Run

/-- Results that resemble each other: the same value, the same cause of failure, or a mapping that
is too deep for the first parser, if it had less room than the second. -/
inductive Resembling {α : Type} (place : Position → Position → Prop)
    (limit limit' offset inside : Nat) :
    Except ParseError α × Parser → Except ParseError α × Parser → Prop
  | value {a : α} {q q' : Parser} (same : q.Resembles place limit limit' offset inside q') :
      Resembling place limit limit' offset inside (.ok a, q) (.ok a, q')
  | error {e e' : ParseError} {q q' : Parser} (same : e.Resembles place limit limit' e') :
      Resembling place limit limit' offset inside (.error e, q) (.error e', q')
  | tooDeep {p : Position} {q : Parser} {out : Except ParseError α × Parser}
      (less : limit - offset < limit') :
      Resembling place limit limit' offset inside (.error (.tooDeep limit p), q) out

section

variable {α β : Type} {place : Position → Position → Prop}
  {limit limit' offset inside inside₁ inside₂ : Nat}

/-- From parsers side by side, the runs come to results that resemble each other. They begin with
`inside` mappings open on the second parser's count, and `inside₁` are open afterwards. -/
def Resembles (place : Position → Position → Prop) (limit limit' offset inside inside₁ : Nat)
    (r r' : Parsing α) : Prop :=
  ∀ p p', p.Resembles place limit limit' offset inside p' → ∀ out out', r.outcome p = some out →
    r'.outcome p' = some out' → Resembling place limit limit' offset inside₁ out out'

theorem resembles_cutOff {r' : Parsing α} :
    Resembles place limit limit' offset inside inside₁ .cutOff r' := by
  rintro p p' - out out' ⟨⟩

theorem resembles_pure {a : α} :
    Resembles place limit limit' offset inside inside (pure a) (pure a) := by
  intro p p' same out out' h h'
  cases h
  cases h'
  exact .value same

theorem resembles_throw {e e' : ParseError} (same : e.Resembles place limit limit' e') :
    Resembles place limit limit' offset inside inside₁ (throw e : Parsing α) (throw e') := by
  intro p p' _ out out' h h'
  cases h
  cases h'
  exact .error same

theorem resembles_refuse {t t' : Token} (same : t.Resembles place t') (expected : Expectation) :
    Resembles place limit limit' offset inside inside₁ (refuse t expected : Parsing α)
      (refuse t' expected) :=
  resembles_throw (.ofToken same expected)

theorem Resembles.bind {r r' : Parsing α} {f f' : α → Parsing β}
    (h : Resembles place limit limit' offset inside inside₁ r r')
    (hf : ∀ a, Resembles place limit limit' offset inside₁ inside₂ (f a) (f' a)) :
    Resembles place limit limit' offset inside inside₂ (r >>= f) (r' >>= f') := by
  intro p p' same out out' ho ho'
  rw [outcome_bind] at ho ho'
  cases first : r.outcome p with
  | none => simp [first] at ho
  | some out₁ =>
    cases first' : r'.outcome p' with
    | none => simp [first'] at ho'
    | some out₁' =>
      rw [first] at ho
      rw [first'] at ho'
      cases h p p' same _ _ first first' with
      | value same' => exact hf _ _ _ same' out out' ho ho'
      | error same' =>
        cases ho
        cases ho'
        exact .error same'
      | tooDeep less =>
        cases ho
        exact .tooDeep less

/-! ### Taking tokens -/

theorem resembles_next {f f' : Token → Parsing β}
    (h : ∀ t t', t.Resembles place t' →
      Resembles place limit limit' offset inside inside₁ (f t) (f' t')) :
    Resembles place limit limit' offset inside inside₁ (next >>= f) (next >>= f') := by
  rintro ⟨s, held, _, _⟩ ⟨s', held', _, _⟩ ⟨scanner, handedBack, depth, depth', limits⟩
  intro out out' ho ho'
  rw [outcome_bind] at ho ho'
  simp only [next, outcome_ofOutcome] at ho ho'
  -- A token that has been handed back comes first, in both parsers or in neither.
  cases handedBack with
  | some same =>
    refine h _ _ same _ _ ?_ out out' ho ho'
    exact ⟨scanner, .none, depth, depth', limits⟩
  | none =>
    rcases Scanner.resembles_next scanner with
      ⟨t, t', u, u', taken, taken', same, later⟩ | ⟨fault, fault', u, u', taken, taken', same⟩
    · simp only [taken] at ho
      simp only [taken'] at ho'
      refine h t t' same _ _ ?_ out out' ho ho'
      exact ⟨later, .none, depth, depth', limits⟩
    · simp only [taken] at ho
      simp only [taken'] at ho'
      cases ho
      cases ho'
      exact .error (.unclosedQuote same)

theorem resembles_unread {t t' : Token} (same : t.Resembles place t') :
    Resembles place limit limit' offset inside inside (unread t) (unread t') := by
  intro p p' side out out' ho ho'
  simp only [unread, outcome_ofOutcome] at ho ho'
  split at ho
  · split at ho'
    · cases ho
      cases ho'
      exact .value ⟨side.scanner, .some same, side.depth, side.depth', side.limits⟩
    · cases ho'
  · cases ho

/-- A mapping opens for both, or it is too deep for the first parser at least. -/
theorem resembles_enter (atMost : limit - offset ≤ limit') {position position' : Position}
    (same : place position position') :
    Resembles place limit limit' offset inside (inside + 1) (enter position) (enter position') := by
  rintro ⟨s, held, _, _⟩ ⟨s', held', _, _⟩ ⟨scanner, handedBack, rfl, rfl, rfl, rfl⟩
  intro out out' ho ho'
  simp only [enter, outcome_ofOutcome] at ho ho'
  split at ho
  · cases ho
    split at ho'
    · cases ho'
      exact .error (.tooDeep same)
    · exact .tooDeep (by dsimp only at *; omega)
  · split at ho'
    · dsimp only at *
      omega
    · cases ho
      cases ho'
      exact .value ⟨scanner, handedBack, Nat.add_right_comm .., rfl, rfl, rfl⟩

theorem resembles_leave :
    Resembles place limit limit' offset (inside + 1) inside leave leave := by
  rintro p p' ⟨scanner, handedBack, depth, depth', limits⟩ out out' ho ho'
  cases ho
  cases ho'
  exact .value ⟨scanner, handedBack, by simp only; omega, by simp only; omega, limits⟩

end

/-! ### The productions -/

section

variable {place : Position → Position → Prop} {limit limit' offset inside : Nat}

theorem resembles_numberOf {t t' : Token} (same : t.Resembles place t') :
    Resembles place limit limit' offset inside inside (numberOf t) (numberOf t') := by
  unfold numberOf
  rw [same.text]
  split
  · exact resembles_pure
  · exact resembles_throw (.invalidNumber _ same.position)

theorem resembles_indexOf {t t' : Token} (same : t.Resembles place t') :
    Resembles place limit limit' offset inside inside (indexOf t) (indexOf t') := by
  unfold indexOf
  rw [same.text]
  dsimp only
  split
  · exact resembles_pure
  · exact resembles_throw (.invalidIndex _ same.position)

theorem resembles_bracket (n : Nat) (b : Bracket) :
    Resembles place limit limit' offset inside inside (bracket n b) (bracket n b) := by
  induction n generalizing b with
  | zero => exact resembles_cutOff
  | succ n ih =>
    unfold bracket
    refine resembles_next fun t t' same => ?_
    rw [same.kind]
    split
    · exact (resembles_indexOf same).bind fun i => ih _
    · exact (resembles_indexOf same).bind fun i => ih _
    · exact ih _
    · exact resembles_pure
    · exact resembles_refuse same _

theorem resembles_steps (n : Nat) :
    Resembles place limit limit' offset inside inside (steps n) (steps n) := by
  induction n with
  | zero => exact resembles_cutOff
  | succ n ih =>
    unfold steps
    refine resembles_next fun t t' same => ?_
    rw [same.kind]
    split
    · refine resembles_next fun name name' same' => ?_
      rw [same'.kind, same'.text]
      split
      · exact ih.bind fun _ => resembles_pure
      · exact (resembles_unread same').bind fun _ => ih
    · refine (resembles_bracket n _).bind fun _ => ?_
      exact ih.bind fun _ => resembles_pure
    · exact (resembles_unread same).bind fun _ => resembles_pure

/-- With an allowance of `n`, all productions do the same for parsers side by side. A mapping
begins behind the brace that opened it, so one more is open then than afterwards. -/
structure AllResemble (place : Position → Position → Prop) (limit limit' offset n : Nat) :
    Prop where
  chain : ∀ inside, Resembles place limit limit' offset inside inside (chain n) (chain n)
  stages : ∀ inside, Resembles place limit limit' offset inside inside (stages n) (stages n)
  sum : ∀ inside, Resembles place limit limit' offset inside inside (sum n) (sum n)
  summands : ∀ inside left,
    Resembles place limit limit' offset inside inside (summands n left) (summands n left)
  product : ∀ inside, Resembles place limit limit' offset inside inside (product n) (product n)
  factors : ∀ inside left,
    Resembles place limit limit' offset inside inside (factors n left) (factors n left)
  operand : ∀ inside, Resembles place limit limit' offset inside inside (operand n) (operand n)
  mapping : ∀ inside,
    Resembles place limit limit' offset (inside + 1) inside (mapping n) (mapping n)
  entries : ∀ inside, Resembles place limit limit' offset inside inside (entries n) (entries n)

variable {n : Nat}

theorem AllResemble.operand_succ (atMost : limit - offset ≤ limit')
    (ih : AllResemble place limit limit' offset n) :
    Resembles place limit limit' offset inside inside (Parsing.operand (n + 1))
      (Parsing.operand (n + 1)) := by
  unfold Parsing.operand
  refine resembles_next fun t t' same => ?_
  have path : Resembles place limit limit' offset inside inside
      (unread t >>= fun _ => steps n >>= fun s => pure (Filter.ofSteps s))
      (unread t' >>= fun _ => steps n >>= fun s => pure (Filter.ofSteps s)) :=
    (resembles_unread same).bind fun _ => (resembles_steps n).bind fun _ => resembles_pure
  rw [same.kind, same.text]
  split
  · exact path
  · exact path
  · exact (resembles_numberOf same).bind fun _ => resembles_pure
  · refine resembles_next fun number number' same' => ?_
    rw [same'.kind]
    split
    · exact (resembles_numberOf same').bind fun _ => resembles_pure
    · exact resembles_refuse same' _
  · exact resembles_pure
  · exact resembles_pure
  · exact (resembles_enter atMost same.position).bind fun _ => ih.mapping inside
  · exact resembles_refuse same _

theorem AllResemble.entries_succ (ih : AllResemble place limit limit' offset n) :
    Resembles place limit limit' offset inside inside (Parsing.entries (n + 1))
      (Parsing.entries (n + 1)) := by
  unfold Parsing.entries
  refine resembles_next fun name name' same => ?_
  rw [same.kind, same.text]
  split
  · refine resembles_next fun colon colon' same' => ?_
    rw [same'.kind]
    split
    · refine (ih.chain inside).bind fun value => resembles_next fun t t' same'' => ?_
      rw [same''.kind]
      split
      · exact (ih.entries inside).bind fun _ => resembles_pure
      · exact resembles_pure
      · exact resembles_refuse same'' _
    · exact resembles_refuse same' _
  · exact resembles_refuse same _

theorem AllResemble.succ (atMost : limit - offset ≤ limit')
    (ih : AllResemble place limit limit' offset n) :
    AllResemble place limit limit' offset (n + 1) where
  chain inside := by
    -- Tokens that resemble each other are of one kind, so that both runs take the same branch.
    unfold Parsing.chain
    exact (ih.sum inside).bind fun _ => (ih.stages inside).bind fun _ => resembles_pure
  stages inside := by
    unfold Parsing.stages
    refine resembles_next fun t t' same => ?_
    rw [same.kind]
    split
    · exact (ih.sum inside).bind fun _ => (ih.stages inside).bind fun _ => resembles_pure
    · exact (resembles_unread same).bind fun _ => resembles_pure
  sum inside := by
    unfold Parsing.sum
    exact (ih.product inside).bind (ih.summands inside)
  summands inside left := by
    unfold Parsing.summands
    refine resembles_next fun t t' same => ?_
    rw [same.kind, same.text]
    split
    · exact (ih.product inside).bind fun _ => ih.summands inside _
    · exact resembles_throw (.unsupportedOperator _ same.position)
    · exact resembles_throw (.unsupportedOperator _ same.position)
    · exact (resembles_unread same).bind fun _ => resembles_pure
  product inside := by
    unfold Parsing.product
    exact (ih.operand inside).bind (ih.factors inside)
  factors inside left := by
    unfold Parsing.factors
    refine resembles_next fun t t' same => ?_
    rw [same.kind]
    split
    · exact (ih.operand inside).bind fun _ => ih.factors inside _
    · exact (resembles_unread same).bind fun _ => resembles_pure
  operand inside := ih.operand_succ atMost
  mapping inside := by
    unfold Parsing.mapping
    refine resembles_next fun first first' same => ?_
    rw [same.kind]
    split
    · exact resembles_leave.bind fun _ => resembles_pure
    · exact (resembles_unread same).bind fun _ => (ih.entries (inside + 1)).bind fun _ =>
        resembles_leave.bind fun _ => resembles_pure
  entries inside := ih.entries_succ

theorem allResemble (atMost : limit - offset ≤ limit') (n : Nat) :
    AllResemble place limit limit' offset n := by
  induction n with
  | zero => constructor <;> intros <;> exact resembles_cutOff
  | succ n ih => exact ih.succ atMost

theorem resembles_chains (atMost : limit - offset ≤ limit') (n : Nat) :
    Resembles place limit limit' offset inside inside (chains n) (chains n) := by
  induction n with
  | zero => exact resembles_cutOff
  | succ n ih =>
    unfold chains
    refine resembles_next fun t t' same => ?_
    rw [same.kind]
    split
    · exact ((allResemble atMost n).chain inside).bind fun _ => ih.bind fun _ => resembles_pure
    · exact resembles_pure
    · exact resembles_refuse same _

end

end Parsing

namespace Parser

variable {place : Position → Position → Prop} {limit limit' offset inside : Nat} {p p' : Parser}

/-- Parsers side by side read programs alike, if the first one has no more room for mappings than
the second. -/
theorem resembles_program (atMost : limit - offset ≤ limit')
    (same : p.Resembles place limit limit' offset inside p') :
    Parsing.Resembling place limit limit' offset inside p.program p'.program := by
  let n := max p.allowance p'.allowance
  have alike : Parsing.Resembles place limit limit' offset inside inside (Parsing.program n)
      (Parsing.program n) :=
    ((Parsing.allResemble atMost n).chain inside).bind fun _ =>
      (Parsing.resembles_chains atMost n).bind fun _ => Parsing.resembles_pure
  exact alike p p' same _ _ (p.outcome_program (Nat.le_max_left ..))
    (p'.outcome_program (Nat.le_max_right ..))

end Parser

end TreeQuery
