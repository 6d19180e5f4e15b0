import TreeQuery.Filter.Production
import TreeQuery.Proofs.Run.Meets
import TreeQuery.Proofs.Token.Outlook

/-!
# Parsing depends on the tokens that it has taken

Two texts that have tokens in common at their beginnings are parsed alike as long as only these
tokens are taken. Whatever is taken later stands further on in both of them, and so does any error
that is found there. An error within the common tokens is therefore the same for both texts, up to
its wording.

The statements are about an offset: what stands up to it is the same for both parsers, and all that
stands behind it may differ.

## Main definitions

* `Scanner.Agrees`, `Parser.Agrees` — the same tokens up to an offset
* `Parsing.Alike` — outcomes that are the same, or both later than the offset
* `Parsing.Local` — a run keeps parsers that agree alike

## Main statements

* `Parsing.Local.bind`, `Parsing.local_next` — one run after the other, and a token taken
* `Parsing.local_program` — programs are parsed alike
* `Scanner.agrees_of_behind` — scanners with the same tokens in front of them agree
-/

namespace TreeQuery

variable {o : Nat}

/-- The scanners give the same tokens until, at some point, all that is to come from either of them
stands behind the offset. -/
inductive Scanner.Agrees (o : Nat) : Scanner → Scanner → Prop
  | past {s s' : Scanner} (h : s.outlook.Past o) (h' : s'.outlook.Past o) : Agrees o s s'
  | next {s s' u u' : Scanner} {t : Token} (h : s.next = (.ok t, u)) (h' : s'.next = (.ok t, u'))
      (rest : Agrees o u u') : Agrees o s s'

/-- Scanners with the same tokens in front of them agree, if what comes behind the tokens stands
behind the offset. -/
theorem Scanner.agrees_of_behind {s s' : Scanner} {ts : List Token} {c c' : Outlook}
    (h : s.outlook = c.behind ts) (h' : s'.outlook = c'.behind ts) (past : c.Past o)
    (past' : c'.Past o) : s.Agrees o s' := by
  induction ts generalizing s s' with
  | nil => exact .past (h ▸ past) (h' ▸ past')
  | cons t ts ih =>
    obtain ⟨taken, rest⟩ := next_of_outlook h
    obtain ⟨taken', rest'⟩ := next_of_outlook h'
    exact .next (Prod.ext taken rfl) (Prod.ext taken' rfl) (ih rest rest')

namespace Parser

/-- All that is to come from the parser stands behind the offset. -/
structure Past (o : Nat) (p : Parser) : Prop where
  handedBack : ∀ t ∈ p.handedBack, o < t.position.offset
  scanner : p.scanner.outlook.Past o

/-- The parsers give the same tokens up to the offset, and count the same open mappings. -/
structure Agrees (o : Nat) (p p' : Parser) : Prop where
  scanner : p.scanner.Agrees o p'.scanner
  handedBack : p'.handedBack = p.handedBack
  depth : p'.depth = p.depth
  maxDepth : p'.maxDepth = p.maxDepth

end Parser

namespace Parsing

open Run TreeQuery.Parser

variable {α β : Type} {late : Prop} {p p' : Parser}
  {out out' : Except ParseError α × Parser}

/-- What holds of an outcome that was found behind the offset. -/
def Late (o : Nat) (out : Except ParseError α × Parser) : Prop :=
  match out.1 with
  | .ok _ => out.2.Past o
  | .error e => o < e.position.offset

/-- The outcomes are the same, as far as they were found up to the offset. -/
inductive Alike (o : Nat) :
    Except ParseError α × Parser → Except ParseError α × Parser → Prop
  | value {a : α} {q q' : Parser} (agrees : q.Agrees o q') : Alike o (.ok a, q) (.ok a, q')
  | error {e : ParseError} {q q' : Parser} : Alike o (.error e, q) (.error e, q')
  | late {out out' : Except ParseError α × Parser} (h : Late o out) (h' : Late o out') :
      Alike o out out'

/-- An error that was found up to the offset is found in either case. -/
theorem Alike.eq_error {e : ParseError} {q : Parser} (h : Alike o (.error e, q) out)
    (early : e.position.offset ≤ o) : out.1 = .error e := by
  cases h with
  | error => rfl
  | late found => exact absurd found (Nat.not_lt.mpr early)

/-- Parsers that agree are treated alike. If `late` is the case, then a parser behind the offset
does not come back. -/
structure Local (o : Nat) (late : Prop) (r : Parsing α) : Prop where
  past : late → ∀ p, p.Past o → Meets r p (fun _ q => q.Past o) (o < ·.position.offset)
  agrees : ∀ p p', p.Agrees o p' → ∀ out out', r.outcome p = some out → r.outcome p' = some out' →
    Alike o out out'

theorem local_cutOff : Local o late (.cutOff : Parsing α) :=
  ⟨fun _ _ _ => meets_cutOff, by rintro p p' - out out' ⟨⟩⟩

theorem local_pure {a : α} : Local o late (pure a) := by
  refine ⟨fun _ p past => meets_pure past, fun p p' agrees out out' h h' => ?_⟩
  cases h
  cases h'
  exact .value agrees

theorem local_throw {e : ParseError} (place : late → o < e.position.offset) :
    Local o late (throw e : Parsing α) := by
  refine ⟨fun h p _ => meets_throw (place h), fun p p' _ out out' h h' => ?_⟩
  cases h
  cases h'
  exact .error

theorem Local.imp {late' : Prop} {r : Parsing α} (h : Local o late r) (weaker : late' → late) :
    Local o late' r :=
  ⟨fun later => h.past (weaker later), h.agrees⟩

theorem late_of_meets {r : Parsing α}
    (h : Meets r p (fun _ q => q.Past o) (o < ·.position.offset)) (ho : r.outcome p = some out) :
    Late o out := by
  obtain ⟨result, q⟩ := out
  have met := h result q ho
  cases result <;> exact met

/-- What comes after a late outcome is late. -/
theorem Late.bind {r : Parsing α} {f : α → Parsing β} {first : Except ParseError α × Parser}
    {out : Except ParseError β × Parser} (found : Late o first) (h : r.outcome p = some first)
    (hf : ∀ a, Local o True (f a)) (ho : (r >>= f).outcome p = some out) : Late o out := by
  obtain ⟨result, q⟩ := first
  rw [outcome_bind, h] at ho
  cases result with
  | ok a => exact late_of_meets ((hf a).past trivial q found) ho
  | error e =>
    cases ho
    exact found

theorem Local.bind {r : Parsing α} {f : α → Parsing β} (h : Local o late r)
    (hf : ∀ a, Local o True (f a)) : Local o late (r >>= f) := by
  refine ⟨fun later p past => (h.past later p past).bind fun a q => (hf a).past trivial q, ?_⟩
  intro p p' agrees out out' ho ho'
  cases first : r.outcome p with
  | none =>
    rw [outcome_bind, first] at ho
    cases ho
  | some out₁ =>
    cases first' : r.outcome p' with
    | none =>
      rw [outcome_bind, first'] at ho'
      cases ho'
    | some out₁' =>
      cases h.agrees p p' agrees _ _ first first' with
      | value agrees' =>
        rw [outcome_bind, first] at ho
        rw [outcome_bind, first'] at ho'
        exact (hf _).agrees _ _ agrees' out out' ho ho'
      | error =>
        rw [outcome_bind, first] at ho
        rw [outcome_bind, first'] at ho'
        cases ho
        cases ho'
        exact .error
      | late found found' => exact .late (found.bind first hf ho) (found'.bind first' hf ho')

/-! ### Taking tokens -/

/-- A token taken behind the offset stands behind it. -/
theorem next_past (p : Parser) (past : p.Past o) :
    Meets next p (fun t q => o < t.position.offset ∧ q.Past o) (o < ·.position.offset) := by
  intro result q ho
  simp only [next, outcome_ofOutcome] at ho
  cases held : p.handedBack with
  | some t =>
    rw [held] at ho
    cases ho
    exact ⟨past.handedBack t held, by rintro _ ⟨⟩, past.scanner⟩
  | none =>
    rw [held] at ho
    dsimp only at ho
    split at ho
    · next t s given =>
      cases ho
      have taken : p.scanner.next.1 = .ok t := by rw [given]
      have after : p.scanner.next.2 = s := by rw [given]
      have free : ∀ t ∈ (none : Option Token), o < t.position.offset := by rintro _ ⟨⟩
      have place := past.scanner.place
      by_cases last : t.kind = .finish
      · have stays := Scanner.outlook_next_of_finish taken last
        rw [Scanner.outlook_of_finish taken last] at place
        rw [after] at stays
        exact ⟨place, free, stays ▸ past.scanner⟩
      · have rest := past.scanner
        rw [Scanner.outlook_of_ok taken last, after] at rest place
        exact ⟨place, free, rest.of_behind⟩
    · next fault s given =>
      cases ho
      have taken : p.scanner.next.1 = .error fault := by rw [given]
      have place := past.scanner.place
      rw [Scanner.outlook_of_error taken] at place
      exact place

/-- A run that goes on with the next token is local, if it is so with each token it may go on with,
one behind the offset included. -/
theorem local_next {f : Token → Parsing β} (h : ∀ t, Local o (o < t.position.offset) (f t)) :
    Local o late (next >>= f) := by
  have past (p : Parser) (past : p.Past o) :
      Meets (next >>= f) p (fun _ q => q.Past o) (o < ·.position.offset) :=
    (next_past p past).bind fun t q ⟨place, past'⟩ => (h t).past place q past'
  refine ⟨fun _ => past, fun p p' agrees out out' ho ho' => ?_⟩
  -- Either both give the same token, or there are only later ones.
  have same (t : Token) (q q' : Parser) (first : next.outcome p = some (.ok t, q))
      (first' : next.outcome p' = some (.ok t, q')) (agrees' : q.Agrees o q') :
      Alike o out out' := by
    rw [outcome_bind, first] at ho
    rw [outcome_bind, first'] at ho'
    exact (h t).agrees q q' agrees' out out' ho ho'
  cases held : p.handedBack with
  | some t =>
    have held' := agrees.handedBack.trans held
    refine same t { p with handedBack := none } { p' with handedBack := none } ?_ ?_
      ⟨agrees.scanner, rfl, agrees.depth, agrees.maxDepth⟩
    · simp only [next, outcome_ofOutcome, held]
    · simp only [next, outcome_ofOutcome, held']
  | none =>
    have held' := agrees.handedBack.trans held
    cases agrees.scanner with
    | past isPast isPast' =>
      exact .late (late_of_meets (past p ⟨by simp [held], isPast⟩) ho)
        (late_of_meets (past p' ⟨by simp [held'], isPast'⟩) ho')
    | @next _ _ u u' t given given' rest =>
      refine same t { p with scanner := u } { p' with scanner := u' } ?_ ?_
        ⟨rest, agrees.handedBack, agrees.depth, agrees.maxDepth⟩
      · simp only [next, outcome_ofOutcome, held, given]
      · simp only [next, outcome_ofOutcome, held', given']

theorem local_unread (t : Token) : Local o (o < t.position.offset) (unread t) := by
  refine ⟨fun later p past result q ho => ?_, fun p p' agrees out out' ho ho' => ?_⟩
  · simp only [unread, outcome_ofOutcome] at ho
    split at ho
    · cases ho
      exact ⟨by rintro _ ⟨⟩; exact later, past.scanner⟩
    · cases ho
  · simp only [unread, outcome_ofOutcome] at ho ho'
    rw [agrees.handedBack] at ho'
    cases held : p.handedBack with
    | none =>
      rw [held] at ho ho'
      cases ho
      cases ho'
      exact .value ⟨agrees.scanner, rfl, agrees.depth, agrees.maxDepth⟩
    | some _ =>
      rw [held] at ho
      cases ho

theorem local_enter (t : Token) : Local o (o < t.position.offset) (enter t.position) := by
  refine ⟨fun later p past result q ho => ?_, fun p p' agrees out out' ho ho' => ?_⟩
  · simp only [enter, outcome_ofOutcome] at ho
    split at ho
    · cases ho
      exact later
    · cases ho
      exact ⟨past.handedBack, past.scanner⟩
  · simp only [enter, outcome_ofOutcome] at ho ho'
    rw [agrees.depth, agrees.maxDepth] at ho'
    by_cases above : p.depth + 1 > p.maxDepth
    · rw [if_pos above] at ho ho'
      cases ho
      cases ho'
      exact .error
    · rw [if_neg above] at ho ho'
      cases ho
      cases ho'
      exact .value ⟨agrees.scanner, agrees.handedBack, rfl, rfl⟩

theorem local_leave : Local o late leave := by
  refine ⟨fun _ p past => meets_change ⟨past.handedBack, past.scanner⟩, ?_⟩
  intro p p' agrees out out' ho ho'
  cases ho
  cases ho'
  refine .value ⟨agrees.scanner, agrees.handedBack, ?_, agrees.maxDepth⟩
  exact congrArg (· - 1) agrees.depth

theorem local_refuse {t : Token} {expected : Expectation} :
    Local o (o < t.position.offset) (refuse t expected : Parsing α) := by
  refine local_throw fun place => ?_
  unfold ParseError.ofToken
  split <;> exact place

/-! ### The productions -/

theorem local_numberOf (t : Token) : Local o (o < t.position.offset) (numberOf t) := by
  unfold numberOf
  split
  · exact local_pure
  · exact local_throw id

theorem local_indexOf (t : Token) : Local o (o < t.position.offset) (indexOf t) := by
  unfold indexOf
  dsimp only
  split
  · exact local_pure
  · exact local_throw id

theorem local_bracket (n : Nat) (b : Bracket) : Local o late (bracket n b) := by
  induction n generalizing b late with
  | zero => exact local_cutOff
  | succ n ih =>
    unfold bracket
    refine local_next fun t => ?_
    split
    · exact (local_indexOf t).bind fun i => ih _
    · exact (local_indexOf t).bind fun i => ih _
    · exact ih _
    · exact local_pure
    · exact local_refuse

theorem local_steps (n : Nat) : Local o late (steps n) := by
  induction n generalizing late with
  | zero => exact local_cutOff
  | succ n ih =>
    unfold steps
    refine local_next fun t => ?_
    split
    · refine local_next fun name => ?_
      split
      · exact ih.bind fun _ => local_pure
      · exact (local_unread name).bind fun _ => ih
    · exact (local_bracket n _).bind fun _ => ih.bind fun _ => local_pure
    · exact (local_unread t).bind fun _ => local_pure

/-- With an allowance of `n`, all productions are local. -/
structure AllLocal (o n : Nat) : Prop where
  chain : Local o True (chain n)
  stages : Local o True (stages n)
  sum : Local o True (sum n)
  summands : ∀ left, Local o True (summands n left)
  product : Local o True (product n)
  factors : ∀ left, Local o True (factors n left)
  operand : Local o True (operand n)
  mapping : Local o True (mapping n)
  entries : Local o True (entries n)

theorem AllLocal.succ {n : Nat} (ih : AllLocal o n) : AllLocal o (n + 1) where
  chain := by
    -- A production looks at the next token only, and hands on to productions that are local by now.
    unfold Parsing.chain
    exact ih.sum.bind fun _ => ih.stages.bind fun _ => local_pure
  stages := by
    unfold Parsing.stages
    refine local_next fun t => ?_
    split
    · exact (ih.sum.bind fun _ => ih.stages.bind fun _ => local_pure).imp fun _ => trivial
    · exact (local_unread t).bind fun _ => local_pure
  sum := by
    unfold Parsing.sum
    exact ih.product.bind ih.summands
  summands left := by
    unfold Parsing.summands
    refine local_next fun t => ?_
    split
    · exact (ih.product.bind fun _ => ih.summands _).imp fun _ => trivial
    · exact local_throw id
    · exact local_throw id
    · exact (local_unread t).bind fun _ => local_pure
  product := by
    unfold Parsing.product
    exact ih.operand.bind ih.factors
  factors left := by
    unfold Parsing.factors
    refine local_next fun t => ?_
    split
    · exact (ih.operand.bind fun _ => ih.factors _).imp fun _ => trivial
    · exact (local_unread t).bind fun _ => local_pure
  operand := by
    unfold Parsing.operand
    refine local_next fun t => ?_
    split
    · exact (local_unread t).bind fun _ => (local_steps n).bind fun _ => local_pure
    · exact (local_unread t).bind fun _ => (local_steps n).bind fun _ => local_pure
    · exact (local_numberOf t).bind fun _ => local_pure
    · refine local_next fun number => ?_
      split
      · exact (local_numberOf number).bind fun _ => local_pure
      · exact local_refuse
    · exact local_pure
    · exact local_pure
    · exact (local_enter t).bind fun _ => ih.mapping
    · exact local_refuse
  mapping := by
    unfold Parsing.mapping
    refine local_next fun first => ?_
    split
    · exact local_leave.bind fun _ => local_pure
    · exact (local_unread first).bind fun _ => ih.entries.bind fun _ => local_leave.bind fun _ =>
        local_pure
  entries := by
    unfold Parsing.entries
    refine local_next fun name => ?_
    split
    · refine local_next fun colon => ?_
      split
      · refine (ih.chain.bind fun value => local_next fun t => ?_).imp fun _ => trivial
        split
        · exact (ih.entries.bind fun _ => local_pure).imp fun _ => trivial
        · exact local_pure
        · exact local_refuse
      · exact local_refuse
    · exact local_refuse

theorem allLocal (n : Nat) : AllLocal o n := by
  induction n with
  | zero => constructor <;> intros <;> exact local_cutOff
  | succ n ih => exact ih.succ

theorem local_chains (n : Nat) : Local o late (chains n) := by
  induction n generalizing late with
  | zero => exact local_cutOff
  | succ n ih =>
    unfold chains
    refine local_next fun t => ?_
    split
    · exact ((allLocal n).chain.bind fun _ => ih.bind fun _ => local_pure).imp fun _ => trivial
    · exact local_pure
    · exact local_refuse

/-- Parsers that agree read a program alike. -/
theorem local_program (n : Nat) : Local o True (program n) :=
  (allLocal n).chain.bind fun _ => (local_chains n).bind fun _ => local_pure

end Parsing

end TreeQuery
