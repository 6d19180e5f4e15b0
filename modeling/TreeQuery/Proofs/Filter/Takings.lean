import TreeQuery.Proofs.Filter.Reuse
import TreeQuery.Proofs.Token.Lossless

/-!
# What the calls of a parser take

A parser takes tokens, hands one back where it belongs to another production, and takes it again.
What it has taken in the end is told by where it stands: the token that waits to be taken again and
what the scanner gave, against the token that waits afterwards. Seen that way, a call takes the next
things that its scanner gives, each of them once. The last of them decides what the call comes to:
it is the end of the text if the call gives a value, and otherwise what the error is about, be it a
token or a quote that is never closed. Nothing waits to be taken again, so the next call begins
right behind it.

The proof goes by induction on the allowance, one production at a time.

## Main definitions

* `Scanner.Supplies` — what a scanner gives on the way to another
* `ParseError.About`, `Parser.Closes`, `Parser.Tallies` — what was taken fits with what a call says
* `Parser.Uses`, `Parser.Advances`, `Parser.Concludes` — what was taken between two places
* `Parsing.Continues`, `Parsing.Orderly` — a run leads to such a place
* `Parser.Takings` — what each of some calls takes

## Main statements

* `Parsing.Continues.bind`, `Parsing.Continues.since` — one run after the other
* `Parsing.allOrderly` — no production takes the end of the text, unless it fails there
* `Parser.Takings.unique` — what each of some calls takes is told by where they begin
* `Parser.calls_take_each_once` — all the calls of a parser
-/

namespace TreeQuery

/-! ### What a scanner supplies -/

namespace Scanner

/-- On the way from the first scanner to the second, this is given, one after the other. -/
inductive Supplies : Scanner → List (Except UnclosedQuote Token) → Scanner → Prop
  | nil (s : Scanner) : Supplies s [] s
  | cons {s s' : Scanner} {given : List (Except UnclosedQuote Token)}
      (others : Supplies s.next.2 given s') : Supplies s (s.next.1 :: given) s'

variable {s s' s'' : Scanner} {given given' : List (Except UnclosedQuote Token)} {t : Token}

theorem supplies_nil_iff : s.Supplies [] s' ↔ s = s' := by
  constructor
  · rintro ⟨⟩
    rfl
  · rintro rfl
    exact .nil s

theorem supplies_cons_iff {x : Except UnclosedQuote Token} :
    s.Supplies (x :: given) s' ↔ x = s.next.1 ∧ s.next.2.Supplies given s' := by
  constructor
  · rintro ⟨⟩
    next others => exact ⟨rfl, others⟩
  · rintro ⟨rfl, others⟩
    exact .cons others

theorem Supplies.trans (h : s.Supplies given s') (h' : s'.Supplies given' s'') :
    s.Supplies (given ++ given') s'' := by
  induction h with
  | nil => exact h'
  | cons _ ih => exact .cons (ih h')

/-- What is given is what the scanner gives when it is asked as often. -/
theorem Supplies.calls_eq (h : s.Supplies given s') : calls given.length s = given := by
  induction h with
  | nil => rfl
  | cons _ ih => rw [List.length_cons, calls, ih]

theorem Supplies.length_le (h : s.Supplies given s') : s'.rest.length ≤ s.rest.length := by
  induction h with
  | nil => exact Nat.le_refl _
  | cons _ ih => exact Nat.le_trans ih (length_next_le _)

/-- Wherever something is left, whatever is given leaves less. -/
theorem length_next_lt_of_ne_nil (some : s.rest ≠ []) : s.next.2.rest.length < s.rest.length := by
  have shorter : s.next.2.rest = [] → s.next.2.rest.length < s.rest.length := by
    intro nothing
    rw [nothing]
    exact List.length_pos_iff.mpr some
  cases taken : s.next.1 with
  | error fault =>
    obtain ⟨-, -, -, -, -, -, -, -, left⟩ := exists_quote_of_error taken
    exact shorter (by rw [left])
  | ok t =>
    by_cases last : t.kind = .finish
    · have nothing := (s.gives_next.eq_finishToken taken last).1
      exact shorter (by rw [next, nothing])
    · exact length_next_lt taken last

/-- A scanner that is as it was before has given nothing but the end. -/
theorem Supplies.eq_finishToken (h : s.Supplies given s) : ∀ x ∈ given, x = .ok s.finishToken := by
  have whole := h.calls_eq
  cases h with
  | nil => exact fun _ mem => nomatch mem
  | cons others =>
    -- Had anything been left, the first answer would have taken of it for good.
    have nothing : s.rest = [] := by
      by_contra some
      exact absurd (length_next_lt_of_ne_nil some) (Nat.not_lt.mpr others.length_le)
    rw [calls_of_nil nothing] at whole
    rw [← whole]
    exact fun _ mem => List.eq_of_mem_replicate mem

end Scanner

/-! ### What a call says -/

/-- The token is the one that the error is about. -/
def ParseError.About : ParseError → Token → Prop
  | unclosedQuote _, _ => False
  | unexpectedToken found _, t => t = found ∧ t.kind ≠ .finish
  | unexpectedEnd _ position, t => t.kind = .finish ∧ t.position = position
  | invalidIndex text position, t => t.kind = .number ∧ t.text = text ∧ t.position = position
  | invalidNumber text position, t => t.kind = .number ∧ t.text = text ∧ t.position = position
  | unsupportedOperator text position, t =>
    (t.kind = .minus ∨ t.kind = .slash) ∧ t.text = text ∧ t.position = position
  | tooDeep _ position, t => t.kind = .leftBrace ∧ t.position = position

theorem ParseError.about_ofToken (t : Token) (expected : Expectation) :
    (ofToken t expected).About t := by
  unfold ofToken
  split
  · next last => exact ⟨last, rfl⟩
  · next inner => exact ⟨rfl, inner⟩

namespace Parser

/-- What a call says: that it gives a value, or why it gives none. -/
def Call.verdict : Call → Parser → Except ParseError Unit
  | program, p => p.program.1.map fun _ => ()
  | filter, p => p.filter.1.map fun _ => ()

/-- Both calls say the same. -/
theorem Call.verdict_eq (call : Call) (p : Parser) :
    call.verdict p = p.program.1.map fun _ => () := by
  cases call with
  | program => rfl
  | filter =>
    simp only [verdict, Parser.filter]
    cases p.program.1 <;> rfl

/-- The last thing that was taken decides what a call says. -/
def Closes : Except ParseError Unit → Except UnclosedQuote Token → Prop
  | .ok (), .ok t => t.kind = .finish
  | .ok (), .error _ => False
  | .error e, .ok t => e.About t
  | .error e, .error fault => e = .unclosedQuote fault

/-- What was taken is what the call speaks of: the last of it decides, and before that there are
tokens, but not the end of the text. -/
inductive Tallies (verdict : Except ParseError Unit) : List (Except UnclosedQuote Token) → Prop
  | intro {ts : List Token} {last : Except UnclosedQuote Token}
      (inner : ∀ t ∈ ts, t.kind ≠ .finish) (closes : Closes verdict last) :
      Tallies verdict (ts.map .ok ++ [last])

variable {verdict : Except ParseError Unit} {taken taken' : List (Except UnclosedQuote Token)}
  {s s' : Scanner} {t : Token} {ts ts' : List Token} {last last' : Except UnclosedQuote Token}
  {e : ParseError} {p q r : Parser}

theorem Closes.tallies (h : Closes verdict last) : Tallies verdict [last] :=
  @Tallies.intro verdict [] last (fun _ mem => nomatch mem) h

/-- No call ends alike at the end of a text and at another token. -/
theorem Closes.not_finish (h : Closes verdict (.ok t)) (inner : t.kind ≠ .finish)
    (h' : Closes verdict (.ok s.finishToken)) : False := by
  match verdict, h, h' with
  | .ok (), last, _ => exact inner last
  | .error (.unexpectedEnd _ _), ⟨last, _⟩, _ => exact inner last
  | .error (.unexpectedToken _ _), _, ⟨_, no⟩ => exact no rfl
  | .error (.unsupportedOperator _ _), _, ⟨.inl no, _⟩ => cases no
  | .error (.unsupportedOperator _ _), _, ⟨.inr no, _⟩ => cases no
  | .error (.invalidIndex _ _), _, ⟨no, _⟩ => cases no
  | .error (.invalidNumber _ _), _, ⟨no, _⟩ => cases no
  | .error (.tooDeep _ _), _, ⟨no, _⟩ => cases no

/-- Behind a token that decides, nothing more can be taken without leaving the place. -/
theorem Closes.not_supplies (h : Closes verdict (.ok t)) (inner : t.kind ≠ .finish)
    (h' : Closes verdict last) : ¬ s.Supplies (ts.map .ok ++ [last]) s := by
  intro supplies
  have ended := supplies.eq_finishToken last (List.mem_append_right _ (List.mem_singleton_self _))
  rw [ended] at h'
  exact h.not_finish inner h'

/-- What fits with a call is told by the places of the scanner before and after it. -/
theorem Tallies.unique (h : Tallies verdict taken) (h' : Tallies verdict taken')
    (supplies : s.Supplies taken s') (supplies' : s.Supplies taken' s') : taken = taken' := by
  obtain ⟨inner, closes⟩ := h
  obtain ⟨inner', closes'⟩ := h'
  next ts last ts' last' =>
  -- Both begin with the scanner's answers. Where one of them ends and the other goes on, the scanner
  -- would have to come back to where it was.
  induction ts generalizing s ts' with
  | nil =>
    obtain ⟨first, rest⟩ := Scanner.supplies_cons_iff.mp supplies
    cases ts' with
    | nil =>
      obtain ⟨first', -⟩ := Scanner.supplies_cons_iff.mp supplies'
      rw [first, first']
    | cons t ts' =>
      obtain ⟨first', rest'⟩ := Scanner.supplies_cons_iff.mp supplies'
      rw [Scanner.supplies_nil_iff.mp rest] at rest'
      rw [first, ← first'] at closes
      exact absurd rest' (closes.not_supplies (inner' t (List.mem_cons_self ..)) closes')
  | cons t ts ih =>
    obtain ⟨first, rest⟩ := Scanner.supplies_cons_iff.mp supplies
    cases ts' with
    | nil =>
      obtain ⟨first', rest'⟩ := Scanner.supplies_cons_iff.mp supplies'
      rw [Scanner.supplies_nil_iff.mp rest'] at rest
      rw [first', ← first] at closes'
      exact absurd rest (closes'.not_supplies (inner t (List.mem_cons_self ..)) closes)
    | cons t' ts' =>
      obtain ⟨first', rest'⟩ := Scanner.supplies_cons_iff.mp supplies'
      have others := ih (fun t mem => inner t (List.mem_cons_of_mem _ mem)) rest
        (fun t mem => inner' t (List.mem_cons_of_mem _ mem)) rest'
      rw [List.map_cons, List.map_cons, List.cons_append, List.cons_append, first, first', others]

/-! ### What was taken between two places -/

/-- The token that waits to be taken again, if there is one. -/
def waiting (p : Parser) : List (Except UnclosedQuote Token) := p.handedBack.toList.map .ok

/-- From `p` to `q` this was taken for good: what waited at `p` and what the scanner gave since, but
not what waits at `q`. -/
def Uses (p : Parser) (taken : List (Except UnclosedQuote Token)) (q : Parser) : Prop :=
  ∃ given, p.scanner.Supplies given q.scanner ∧ p.waiting ++ given = taken ++ q.waiting

/-- At `q` the token `t` was just taken, and there is room for it to be handed back. -/
structure Picks (p : Parser) (t : Token) (q : Parser) : Prop where
  uses : p.Uses [.ok t] q
  free : q.handedBack = none

/-- From `p` to `q` some tokens were taken, but not the end of the text. -/
def Advances (p q : Parser) : Prop :=
  ∃ ts : List Token, p.Uses (ts.map .ok) q ∧ ∀ t ∈ ts, t.kind ≠ .finish

/-- At `q` it is decided what a call that began at `p` says, and no token waits. -/
structure Concludes (p : Parser) (verdict : Except ParseError Unit) (q : Parser) : Prop where
  free : q.handedBack = none
  uses : ∃ taken, p.Uses taken q ∧ Tallies verdict taken

theorem Uses.of_eq (scanner : q.scanner = p.scanner) (held : q.handedBack = p.handedBack) :
    p.Uses [] q := by
  refine ⟨[], ?_, ?_⟩
  · rw [scanner]
    exact .nil _
  · rw [waiting, waiting, held, List.append_nil, List.nil_append]

theorem Uses.trans (h : p.Uses taken q) (h' : q.Uses taken' r) : p.Uses (taken ++ taken') r := by
  obtain ⟨given, supplies, same⟩ := h
  obtain ⟨given', supplies', same'⟩ := h'
  refine ⟨given ++ given', supplies.trans supplies', ?_⟩
  calc p.waiting ++ (given ++ given')
      = taken ++ (q.waiting ++ given') := by rw [← List.append_assoc, same, List.append_assoc]
    _ = taken ++ taken' ++ r.waiting := by rw [same', List.append_assoc]

/-- Where no token waits, what was taken is what the scanner gave. -/
theorem Uses.supplies (h : p.Uses taken q) (free : p.handedBack = none)
    (free' : q.handedBack = none) : p.scanner.Supplies taken q.scanner := by
  obtain ⟨given, supplies, same⟩ := h
  rw [waiting, waiting, free, free'] at same
  have all : given = taken := by simpa using same
  rw [← all]
  exact supplies

theorem Advances.of_uses_nil (h : p.Uses [] q) : p.Advances q :=
  ⟨[], h, fun _ mem => nomatch mem⟩

theorem Advances.trans (h : p.Advances q) (h' : q.Advances r) : p.Advances r := by
  obtain ⟨ts, uses, inner⟩ := h
  obtain ⟨ts', uses', inner'⟩ := h'
  refine ⟨ts ++ ts', ?_, List.forall_mem_append.mpr ⟨inner, inner'⟩⟩
  rw [List.map_append]
  exact uses.trans uses'

theorem Advances.concludes (h : p.Advances q) (h' : q.Concludes verdict r) :
    p.Concludes verdict r := by
  obtain ⟨ts, uses, inner⟩ := h
  obtain ⟨free, taken, uses', inner', closes⟩ := h'
  next ts' last =>
  refine ⟨free, _, uses.trans uses', ?_⟩
  rw [← List.append_assoc, ← List.map_append]
  exact .intro (List.forall_mem_append.mpr ⟨inner, inner'⟩) closes

theorem Picks.advances (h : p.Picks t q) (inner : t.kind ≠ .finish) : p.Advances q :=
  ⟨[t], h.uses, List.forall_mem_singleton.mpr inner⟩

theorem Picks.advances_of_isName (h : p.Picks t q) (isName : t.kind.isName) : p.Advances q := by
  refine h.advances fun last => ?_
  rw [last] at isName
  cases isName

theorem Picks.concludes (h : p.Picks t q) (closes : Closes verdict (.ok t)) :
    p.Concludes verdict q :=
  ⟨h.free, _, h.uses, closes.tallies⟩

end Parser

namespace Parsing

open Run TreeQuery.Parser

variable {α β : Type} {p q r : Parser} {t : Token} {good mid : Parser → Prop}

/-! ### One run after the other -/

/-- Started at `q`, the run goes on from `p` to a place that is as stated, or concludes with an
error. -/
def Continues (p q : Parser) (r : Parsing α) (good : Parser → Prop) : Prop :=
  ∀ result q', r.outcome q = some (result, q') →
    match result with
    | .ok _ => good q'
    | .error e => p.Concludes (.error e) q'

theorem continues_cutOff : Continues p q (.cutOff : Parsing α) good :=
  fun _ _ h => nomatch h

theorem continues_pure {a : α} (h : good q) : Continues p q (pure a) good := by
  intro result q' ho
  cases ho
  exact h

theorem Continues.bind {r : Parsing α} {f : α → Parsing β} (h : Continues p q r mid)
    (hf : ∀ a q', mid q' → Continues p q' (f a) good) : Continues p q (r >>= f) good := by
  intro result q' ho
  rw [outcome_bind] at ho
  split at ho
  · cases ho
  · next a q₁ first => exact hf a q₁ (h _ _ first) result q' ho
  · next e q₁ first =>
    cases ho
    exact h _ _ first

/-- What goes on from a place goes on from where this place was reached. -/
theorem Continues.since {q' : Parser} {r : Parsing α} (reached : p.Advances q)
    (h : Continues q q' r good) (further : ∀ q'', good q'' → mid q'') :
    Continues p q' r mid := by
  intro result q'' ho
  have met := h result q'' ho
  cases result with
  | ok a => exact further q'' met
  | error e => exact reached.concludes met

/-- Wherever the run starts, it takes tokens that are not the end of the text. -/
def Orderly (r : Parsing α) : Prop := ∀ p, Continues p p r p.Advances

theorem Orderly.further {r : Parsing α} (h : Orderly r) (reached : p.Advances q) :
    Continues p q r p.Advances :=
  (h q).since reached fun _ => reached.trans

theorem orderly_cutOff : Orderly (.cutOff : Parsing α) := fun _ => continues_cutOff

theorem Orderly.bind {r : Parsing α} {f : α → Parsing β} (h : Orderly r)
    (hf : ∀ a, Orderly (f a)) : Orderly (r >>= f) :=
  fun p => (h p).bind fun a _ reached => (hf a).further reached

theorem Orderly.map {r : Parsing α} {f : α → β} (h : Orderly r) :
    Orderly (r >>= fun a => pure (f a)) :=
  fun p => (h p).bind fun _ _ reached => continues_pure reached

/-! ### Taking tokens and handing them back -/

theorem picks_of_next (h : next.outcome p = some (.ok t, q)) : p.Picks t q := by
  simp only [next, outcome_ofOutcome] at h
  split at h
  · -- The token waited, and the scanner was not asked.
    next t' held =>
    cases h
    refine ⟨⟨[], .nil _, ?_⟩, rfl⟩
    simp [waiting, held]
  · next free =>
    split at h <;> cases h
    next s given =>
    refine ⟨⟨[.ok t], ?_, ?_⟩, free⟩
    · exact Scanner.supplies_cons_iff.mpr ⟨by rw [given], by rw [given]; exact .nil _⟩
    · simp [waiting, free]

/-- An unclosed quote is the last thing that is taken, and it is what the error is about. -/
theorem concludes_of_next {e : ParseError} (h : next.outcome p = some (.error e, q)) :
    p.Concludes (.error e) q := by
  simp only [next, outcome_ofOutcome] at h
  split at h
  · cases h
  · next free =>
    split at h <;> cases h
    next fault s given =>
    refine ⟨free, [.error fault], ⟨[.error fault], ?_, ?_⟩, Closes.tallies rfl⟩
    · exact Scanner.supplies_cons_iff.mpr ⟨by rw [given], by rw [given]; exact .nil _⟩
    · simp [waiting, free]

theorem continues_next {f : Token → Parsing β}
    (h : ∀ t q, p.Picks t q → Continues p q (f t) good) : Continues p p (next >>= f) good := by
  intro result q' ho
  rw [outcome_bind] at ho
  split at ho
  · cases ho
  · next t q first => exact h t q (picks_of_next first) result q' ho
  · next e q first =>
    cases ho
    exact concludes_of_next first

/-- A token that is handed back where it was taken was not taken at all. -/
theorem continues_unread {f : Unit → Parsing β} (picks : p.Picks t q)
    (h : ∀ q', p.Advances q' → Continues p q' (f ()) good) :
    Continues p q (unread t >>= f) good := by
  obtain ⟨⟨given, supplies, same⟩, free⟩ := picks
  intro result q' ho
  rw [outcome_bind] at ho
  simp only [unread, outcome_ofOutcome, free] at ho
  refine h { q with handedBack := some t } (.of_uses_nil ⟨given, supplies, ?_⟩) result q' ho
  rw [same]
  simp [waiting, free]

theorem continues_throw {e : ParseError} (picks : p.Picks t q) (about : e.About t) :
    Continues p q (throw e : Parsing α) good := by
  intro result q' ho
  cases ho
  exact picks.concludes about

theorem continues_refuse {expected : Expectation} (picks : p.Picks t q) :
    Continues p q (refuse t expected : Parsing α) good :=
  continues_throw picks (ParseError.about_ofToken t expected)

theorem continues_enter {f : Unit → Parsing β} (picks : p.Picks t q) (kind : t.kind = .leftBrace)
    (h : ∀ q', p.Advances q' → Continues p q' (f ()) good) :
    Continues p q (enter t.position >>= f) good := by
  -- The count of mappings has nothing to do with what is taken, in the error either.
  have same {depth : Nat} : q.Uses [] { q with depth } := .of_eq rfl rfl
  have advances := picks.advances (by rw [kind]; decide)
  intro result q' ho
  rw [outcome_bind] at ho
  simp only [enter, outcome_ofOutcome] at ho
  split at ho
  · next above => split at above <;> cases above
  · next below =>
    split at below <;> cases below
    exact h _ (advances.trans (.of_uses_nil same)) result q' ho
  · next above =>
    split at above <;> cases above
    cases ho
    refine Picks.concludes ⟨?_, picks.free⟩ ⟨kind, rfl⟩
    exact picks.uses.trans same

theorem orderly_leave : Orderly leave := by
  intro p result q' ho
  cases ho
  exact .of_uses_nil (.of_eq rfl rfl)

/-! ### Numbers and selectors -/

theorem continues_numberOf (picks : p.Picks t q) (kind : t.kind = .number) :
    Continues p q (numberOf t) p.Advances := by
  unfold numberOf
  split
  · exact continues_pure (picks.advances (by rw [kind]; decide))
  · exact continues_throw picks ⟨kind, rfl, rfl⟩

theorem continues_indexOf (picks : p.Picks t q) (kind : t.kind = .number) :
    Continues p q (indexOf t) p.Advances := by
  unfold indexOf
  dsimp only
  split
  · exact continues_pure (picks.advances (by rw [kind]; decide))
  · exact continues_throw picks ⟨kind, rfl, rfl⟩

theorem orderly_bracket (n : Nat) (b : Bracket) : Orderly (bracket n b) := by
  induction n generalizing b with
  | zero => exact orderly_cutOff
  | succ n ih =>
    intro p
    unfold bracket
    refine continues_next fun t q picks => ?_
    split
    · next kind _ _ =>
      exact (continues_indexOf picks kind).bind fun i q' reached => (ih _).further reached
    · next kind _ _ =>
      exact (continues_indexOf picks kind).bind fun i q' reached => (ih _).further reached
    · next kind _ => exact (ih _).further (picks.advances (by rw [kind]; decide))
    · next kind => exact continues_pure (picks.advances (by rw [kind]; decide))
    · exact continues_refuse picks

theorem orderly_steps (n : Nat) : Orderly (steps n) := by
  induction n with
  | zero => exact orderly_cutOff
  | succ n ih =>
    intro p
    unfold steps
    refine continues_next fun t q picks => ?_
    split
    · next kind =>
      refine Orderly.further ?_ (picks.advances (by rw [kind]; decide))
      intro p
      refine continues_next fun name q picks => ?_
      split
      · next isName => exact ih.map.further (picks.advances_of_isName isName)
      · -- The dot only separates, and what follows it stands there again.
        exact continues_unread picks fun q' back => ih.further back
    · next kind =>
      exact ((orderly_bracket n _).bind fun _ => ih.map).further
        (picks.advances (by rw [kind]; decide))
    · exact continues_unread picks fun q' back => continues_pure back

/-! ### Filters -/

/-- With an allowance of `n`, all productions take tokens that are not the end of the text. -/
structure AllOrderly (n : Nat) : Prop where
  chain : Orderly (chain n)
  stages : Orderly (stages n)
  sum : Orderly (sum n)
  summands : ∀ left, Orderly (summands n left)
  product : Orderly (product n)
  factors : ∀ left, Orderly (factors n left)
  operand : Orderly (operand n)
  mapping : Orderly (mapping n)
  entries : Orderly (entries n)

variable {n : Nat}

theorem AllOrderly.stages_succ (ih : AllOrderly n) : Orderly (Parsing.stages (n + 1)) := by
  intro p
  unfold Parsing.stages
  refine continues_next fun t q picks => ?_
  split
  · next kind =>
    exact (ih.sum.bind fun _ => ih.stages.map).further (picks.advances (by rw [kind]; decide))
  · exact continues_unread picks fun q' back => continues_pure back

theorem AllOrderly.summands_succ (ih : AllOrderly n) (left : Filter) :
    Orderly (Parsing.summands (n + 1) left) := by
  intro p
  unfold Parsing.summands
  refine continues_next fun t q picks => ?_
  split
  · next kind =>
    exact (ih.product.bind fun _ => ih.summands _).further
      (picks.advances (by rw [kind]; decide))
  · next kind => exact continues_throw picks ⟨.inl kind, rfl, rfl⟩
  · next kind => exact continues_throw picks ⟨.inr kind, rfl, rfl⟩
  · exact continues_unread picks fun q' back => continues_pure back

theorem AllOrderly.factors_succ (ih : AllOrderly n) (left : Filter) :
    Orderly (Parsing.factors (n + 1) left) := by
  intro p
  unfold Parsing.factors
  refine continues_next fun t q picks => ?_
  split
  · next kind =>
    exact (ih.operand.bind fun _ => ih.factors _).further (picks.advances (by rw [kind]; decide))
  · exact continues_unread picks fun q' back => continues_pure back

theorem AllOrderly.operand_succ (ih : AllOrderly n) : Orderly (Parsing.operand (n + 1)) := by
  intro p
  unfold Parsing.operand
  refine continues_next fun t q picks => ?_
  split
  · -- The path takes its first token again.
    exact continues_unread picks fun q' back => (orderly_steps n).map.further back
  · exact continues_unread picks fun q' back => (orderly_steps n).map.further back
  · next kind =>
    exact (continues_numberOf picks kind).bind fun _ _ reached => continues_pure reached
  · next kind =>
    refine Orderly.further ?_ (picks.advances (by rw [kind]; decide))
    intro p
    refine continues_next fun number q picks => ?_
    split
    · next kind =>
      exact (continues_numberOf picks kind).bind fun _ _ reached => continues_pure reached
    · exact continues_refuse picks
  · next kind => exact continues_pure (picks.advances (by rw [kind]; decide))
  · next kind => exact continues_pure (picks.advances (by rw [kind]; decide))
  · next kind => exact continues_enter picks kind fun q' opened => ih.mapping.further opened
  · exact continues_refuse picks

theorem AllOrderly.mapping_succ (ih : AllOrderly n) : Orderly (Parsing.mapping (n + 1)) := by
  intro p
  unfold Parsing.mapping
  refine continues_next fun first q picks => ?_
  split
  · next kind => exact orderly_leave.map.further (picks.advances (by rw [kind]; decide))
  · exact continues_unread picks fun q' back =>
      (ih.entries.bind fun _ => orderly_leave.map).further back

theorem AllOrderly.entries_succ (ih : AllOrderly n) : Orderly (Parsing.entries (n + 1)) := by
  intro p
  unfold Parsing.entries
  refine continues_next fun name q picks => ?_
  split
  · next isName =>
    refine Orderly.further ?_ (picks.advances_of_isName isName)
    intro p
    refine continues_next fun colon q picks => ?_
    split
    · next kind =>
      refine Orderly.further ?_ (picks.advances (by rw [kind]; decide))
      refine ih.chain.bind fun value p => continues_next fun t q picks => ?_
      split
      · next kind => exact ih.entries.map.further (picks.advances (by rw [kind]; decide))
      · next kind => exact continues_pure (picks.advances (by rw [kind]; decide))
      · exact continues_refuse picks
    · exact continues_refuse picks
  · exact continues_refuse picks

theorem AllOrderly.succ (ih : AllOrderly n) : AllOrderly (n + 1) where
  chain := by
    unfold Parsing.chain
    exact ih.sum.bind fun _ => ih.stages.map
  stages := ih.stages_succ
  sum := by
    unfold Parsing.sum
    exact ih.product.bind ih.summands
  summands := ih.summands_succ
  product := by
    unfold Parsing.product
    exact ih.operand.bind ih.factors
  factors := ih.factors_succ
  operand := ih.operand_succ
  mapping := ih.mapping_succ
  entries := ih.entries_succ

theorem allOrderly (n : Nat) : AllOrderly n := by
  induction n with
  | zero => constructor <;> intros <;> exact orderly_cutOff
  | succ n ih => exact ih.succ

/-! ### Programs -/

/-- What is left of a program takes the end of the text last. -/
theorem continues_chains (n : Nat) : ∀ p, Continues p p (chains n) (p.Concludes (.ok ())) := by
  induction n with
  | zero => exact fun _ => continues_cutOff
  | succ n ih =>
    intro p
    unfold chains
    refine continues_next fun t q picks => ?_
    split
    · next kind =>
      have further := (allOrderly n).chain.further (picks.advances (by rw [kind]; decide))
      refine further.bind fun _ q' reached => ?_
      exact ((ih q').since reached fun _ => reached.concludes).bind fun _ _ => continues_pure
    · next kind => exact continues_pure (picks.concludes kind)
    · exact continues_refuse picks

theorem continues_program (n : Nat) (p : Parser) :
    Continues p p (Parsing.program n) (p.Concludes (.ok ())) := by
  unfold Parsing.program
  refine ((allOrderly n).chain p).bind fun _ q reached => ?_
  exact ((continues_chains n q).since reached fun _ => reached.concludes).bind fun _ _ =>
    continues_pure

end Parsing

/-! ### Calls -/

namespace Parser

variable {p : Parser} {calls : List Call} {taken taken' : List (List (Except UnclosedQuote Token))}

/-- A call takes what it speaks of, and no token waits behind it. -/
theorem concludes_after (p : Parser) (call : Call) :
    p.Concludes (call.verdict p) (call.after p) := by
  have outcome := p.outcome_program (Nat.le_refl _)
  rw [call.verdict_eq, call.after_eq]
  generalize p.program = out at outcome ⊢
  obtain ⟨result, q⟩ := out
  have continues := Parsing.continues_program p.allowance p _ _ outcome
  cases result with
  | ok chains => exact continues
  | error e => exact continues

/-- What each of some calls takes from the scanner, one call after the other. -/
inductive Takings : Parser → List Call → List (List (Except UnclosedQuote Token)) → Prop
  | nil (p : Parser) : Takings p [] []
  | cons {p : Parser} {call : Call} {calls : List Call} {own : List (Except UnclosedQuote Token)}
      {others : List (List (Except UnclosedQuote Token))}
      (supplies : p.scanner.Supplies own (call.after p).scanner)
      (tallies : Tallies (call.verdict p) own)
      (rest : Takings (call.after p) calls others) : Takings p (call :: calls) (own :: others)

/-- All the calls together take what the scanner gives, one after the other. -/
theorem Takings.supplies (h : p.Takings calls taken) :
    p.scanner.Supplies taken.flatten (p.afterCalls calls).scanner := by
  induction h with
  | nil p => exact .nil _
  | cons supplies _ _ ih => exact supplies.trans ih

theorem Takings.unique (h : p.Takings calls taken) (h' : p.Takings calls taken') :
    taken = taken' := by
  induction h generalizing taken' with
  | nil p =>
    cases h'
    rfl
  | cons supplies tallies _ ih =>
    cases h' with
    | cons supplies' tallies' rest' =>
      rw [tallies.unique tallies' supplies supplies', ih rest']

theorem exists_takings (free : p.handedBack = none) (calls : List Call) :
    ∃ taken, p.Takings calls taken := by
  induction calls generalizing p with
  | nil => exact ⟨[], .nil p⟩
  | cons call calls ih =>
    obtain ⟨free', own, uses, tallies⟩ := concludes_after p call
    obtain ⟨others, rest⟩ := ih free'
    exact ⟨own :: others, .cons (uses.supplies free free') tallies rest⟩

/-- After any calls of a parser, the next one comes to an end. So it never hands a token back while
another one waits: that has no outcome, and neither has a run that comes to it. When a call has come
to its end, no token waits. What the calls take is what the scanner gives from the beginning of the
text, all of it once and in order, and each call begins behind what the one before it took. The last
thing that a call takes is the end of the text if it gives a value; if it fails, it is what the
error is about; and no call takes the end of the text before that. -/
theorem calls_take_each_once (maxDepth : Nat) (text : String) (calls : List Call) :
    let p := (ofText maxDepth text).afterCalls calls
    (∀ n, p.allowance ≤ n → (Parsing.program n).outcome p = some p.program) ∧
      (∀ t q, ((Parsing.unread t).outcome q).isSome ↔ q.handedBack = none) ∧
      p.handedBack = none ∧
      ∃! taken, (ofText maxDepth text).Takings calls taken ∧
        (Scanner.ofText text).Supplies taken.flatten p.scanner := by
  intro p
  have new : (ofText maxDepth text).Ready maxDepth := ⟨rfl, rfl⟩
  have ready : p.Ready maxDepth := ready_afterCalls new calls
  obtain ⟨taken, takings⟩ := exists_takings new.handedBack calls
  refine ⟨fun n => p.outcome_program, fun t q => ?_, ready.handedBack, taken,
    ⟨takings, takings.supplies⟩, fun taken' ⟨takings', _⟩ => takings'.unique takings⟩
  cases held : q.handedBack <;> simp [Parsing.unread, held]

/-- The second number is in the wrong place, so the next call begins at the word behind it. -/
example : ((ofText 1 "1 2 length").afterCalls [.filter]).filter.1.toOption.any
    (·.same .length) = true := by decide +kernel

end Parser

end TreeQuery
