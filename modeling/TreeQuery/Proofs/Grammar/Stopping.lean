import TreeQuery.Filter.Parser
import TreeQuery.Proofs.Grammar.Examination

/-!
# Where a parser stops, and what it leaves open

A parser counts the mappings that are open. As long as nothing fails, this is the number of braces
that were opened and not closed among the tokens taken so far, added to what was open before, and it
never goes beyond the limit. When a production fails, the count stays as it is at that moment, so
that the mappings around the error are still counted afterwards. A mapping that is too deep is
counted as well.

The proof goes by induction on the allowance, one production at a time.

## Main definitions

* `levelBehind`, `firstBeyond` — braces, counted token by token
* `Parser.Reaches`, `Parser.Ends`, `Parser.Stops` — where a parser stands after a value, at the end
  of a program and after an error
* `Parsing.Proceeds` — a run leads to such a place

## Main statements

* `Parsing.Proceeds.bind`, `Parsing.Proceeds.since` — one run after the other
* `Parser.ends_of_program`, `Parser.stops_of_program` — where a program ends or stops
* `Parser.exists_brace_of_tooDeep` — the brace that goes beyond the limit
-/

namespace TreeQuery

/-! ### Braces -/

/-- How many mappings are open behind a token, if `inside` are open before it. -/
def Token.levelBehind (t : Token) (inside : Nat) : Nat :=
  match t.kind with
  | .leftBrace => inside + 1
  | .rightBrace => inside - 1
  | _ => inside

/-- How many mappings are open behind some tokens, if `inside` are open before them. -/
def levelBehind (inside : Nat) (ts : List Token) : Nat :=
  ts.foldl (fun n t => t.levelBehind n) inside

/-- The first brace that opens a mapping inside of `limit` others, if `inside` are open before the
tokens. -/
def firstBeyond (limit : Nat) : (inside : Nat) → List Token → Option Token
  | _, [] => none
  | inside, t :: ts =>
    if t.kind = .leftBrace ∧ limit ≤ inside then some t
    else firstBeyond limit (t.levelBehind inside) ts

section Braces

variable {limit inside : Nat} {t : Token} {ts ts' : List Token}

theorem levelBehind_append :
    levelBehind inside (ts ++ ts') = levelBehind (levelBehind inside ts) ts' :=
  List.foldl_append

theorem firstBeyond_append (none : firstBeyond limit inside ts = none) :
    firstBeyond limit inside (ts ++ ts') = firstBeyond limit (levelBehind inside ts) ts' := by
  induction ts generalizing inside with
  | nil => rfl
  | cons t ts ih =>
    rw [firstBeyond] at none
    rw [List.cons_append, firstBeyond]
    split at none
    · cases none
    · next within =>
      rw [if_neg within]
      exact ih none

/-- A brace that opens a mapping inside of `limit` others is the first one if there is none before
it. -/
theorem firstBeyond_append_cons (none : firstBeyond limit inside ts = none)
    (opens : t.kind = .leftBrace) (full : limit ≤ levelBehind inside ts) :
    firstBeyond limit inside (ts ++ t :: ts') = some t := by
  rw [firstBeyond_append none]
  exact if_pos ⟨opens, full⟩

/-- What is found is a brace among the tokens. -/
theorem mem_of_firstBeyond (found : firstBeyond limit inside ts = some t) :
    t ∈ ts ∧ t.kind = .leftBrace := by
  induction ts generalizing inside with
  | nil => cases found
  | cons t' ts ih =>
    rw [firstBeyond] at found
    split at found
    · next opens =>
      cases found
      exact ⟨List.mem_cons_self .., opens.1⟩
    · exact ⟨List.mem_cons_of_mem _ (ih found).1, (ih found).2⟩

/-- The tokens that open and close nothing, the end aside. -/
def TokenKind.isPlain : TokenKind → Bool
  | finish | leftBrace | rightBrace => false
  | _ => true

theorem TokenKind.isPlain_of_isName {kind : TokenKind} (h : kind.isName) : kind.isPlain := by
  cases kind <;> first | rfl | cases h

theorem levelBehind_of_isPlain (plain : t.kind.isPlain) : levelBehind inside [t] = inside := by
  simp only [levelBehind, List.foldl_cons, List.foldl_nil, Token.levelBehind]
  split <;> simp_all [TokenKind.isPlain]

theorem firstBeyond_of_ne (other : t.kind ≠ .leftBrace) : firstBeyond limit inside [t] = none :=
  if_neg fun ⟨opens, _⟩ => other opens

end Braces

/-- How many mappings an error itself leaves open: one that is too deep is counted. -/
def ParseError.opened : ParseError → Nat
  | tooDeep .. => 1
  | _ => 0

theorem ParseError.opened_ofToken (t : Token) (expected : Expectation) :
    (ofToken t expected).opened = 0 := by
  unfold ofToken
  split <;> rfl

/-! ### Places -/

namespace Parser

/-- From `p` to `q` some tokens were taken. Counting their braces, `level` mappings are open behind
them, and never more than the limit were; the parser counts `depth`. -/
def Reaches (p : Parser) (level depth : Nat) (q : Parser) : Prop :=
  ∃ ts, p.outlook = q.outlook.behind ts ∧ q.maxDepth = p.maxDepth ∧ q.depth = depth ∧
    levelBehind p.depth ts = level ∧ firstBeyond p.maxDepth p.depth ts = none

/-- From `p` to `q` all tokens were taken, the one at the end included. -/
structure Ends (p q : Parser) : Prop where
  outlook : ∃ ts last, p.outlook = ⟨ts, .ok last⟩ ∧ firstBeyond p.maxDepth p.depth ts = none
  free : q.handedBack = none
  depth : SameDepth p q

/-- From `p` to `q` the tokens `ts` were taken and then what the error is about, the first thing in
the outlook `c`. The parser counts the mappings that are open there. -/
structure Stops (p : Parser) (e : ParseError) (ts : List Token) (c : Outlook) (q : Parser) :
    Prop where
  outlook : p.outlook = c.behind ts
  raises : c.Raises e
  within : firstBeyond p.maxDepth p.depth ts = none
  free : q.handedBack = none
  depth : q.depth = levelBehind p.depth ts + e.opened
  maxDepth : q.maxDepth = p.maxDepth
  rest : ∀ t more, c.tokens = t :: more → q.outlook = ⟨more, c.ending⟩
  full : e.opened = 1 → p.maxDepth ≤ levelBehind p.depth ts ∧ e = .tooDeep p.maxDepth e.position ∧
    ∃ t more, c.tokens = t :: more ∧ t.kind = .leftBrace

variable {p q r : Parser} {level depth inside : Nat} {t : Token} {ts : List Token} {c : Outlook}
  {e : ParseError}

theorem Reaches.trans (h : p.Reaches inside inside q) (h' : q.Reaches level depth r) :
    p.Reaches level depth r := by
  obtain ⟨ts, outlook, maxDepth, counts, same, within⟩ := h
  obtain ⟨ts', outlook', maxDepth', counts', same', within'⟩ := h'
  refine ⟨ts ++ ts', ?_, maxDepth'.trans maxDepth, counts', ?_, ?_⟩
  · rw [outlook, outlook', Outlook.behind_behind]
  · rw [levelBehind_append, same, ← same', counts]
  · rw [firstBeyond_append within, same, ← within', counts, maxDepth]

theorem Reaches.stops (h : p.Reaches inside inside q) (h' : q.Stops e ts c r) :
    ∃ ts', p.Stops e ts' c r := by
  obtain ⟨before, outlook, maxDepth, counts, same, within⟩ := h
  refine ⟨before ++ ts, ?_, h'.raises, ?_, h'.free, ?_, h'.maxDepth.trans maxDepth, h'.rest, ?_⟩
  · rw [outlook, h'.outlook, Outlook.behind_behind]
  · rw [firstBeyond_append within, same, ← h'.within, counts, maxDepth]
  · rw [levelBehind_append, same, ← counts, h'.depth]
  · rw [levelBehind_append, same, ← counts, ← maxDepth]
    exact h'.full

/-- Where the same tokens are to come, and as many mappings are open. -/
theorem Consumes.reaches (h : p.Consumes [] q) : p.Reaches p.depth p.depth q :=
  ⟨[], h.outlook, h.depth.maxDepth, h.depth.depth, rfl, rfl⟩

theorem Yields.reaches (h : p.Yields t q) (plain : t.kind.isPlain) :
    p.Reaches p.depth p.depth q := by
  have inner : t.kind ≠ .finish := by
    rintro last
    rw [last] at plain
    cases plain
  have other : t.kind ≠ .leftBrace := by
    rintro opens
    rw [opens] at plain
    cases plain
  exact ⟨[t], (h.consumes inner).outlook, h.depth.maxDepth, h.depth.depth,
    levelBehind_of_isPlain plain, firstBeyond_of_ne other⟩

/-- Behind a closing brace one mapping less is open, but still counted. -/
theorem Yields.reaches_of_rightBrace (h : p.Yields t q) (kind : t.kind = .rightBrace) :
    p.Reaches (p.depth - 1) p.depth q := by
  refine ⟨[t], (h.consumes ?_).outlook, h.depth.maxDepth, h.depth.depth, ?_, firstBeyond_of_ne ?_⟩
  · rw [kind]
    decide
  · simp [levelBehind, Token.levelBehind, kind]
  · rw [kind]
    decide

/-- Behind an opening brace one mapping more is open, once it is counted. -/
theorem Yields.reaches_of_leftBrace (h : p.Yields t q) (kind : t.kind = .leftBrace)
    (room : p.depth < p.maxDepth) :
    p.Reaches (p.depth + 1) (p.depth + 1) { q with depth := q.depth + 1 } := by
  refine ⟨[t], (h.consumes ?_).outlook, h.depth.maxDepth, ?_, ?_, if_neg ?_⟩
  · rw [kind]
    decide
  · rw [h.depth.depth]
  · simp [levelBehind, Token.levelBehind, kind]
  · rintro ⟨-, full⟩
    omega

theorem Yields.ends (h : p.Yields t q) (last : t.kind = .finish) : p.Ends q := by
  refine ⟨⟨[], t, ?_, rfl⟩, h.free, h.depth⟩
  rw [h.outlook, if_pos last]

theorem Reaches.ends (h : p.Reaches p.depth p.depth q) (h' : q.Ends r) : p.Ends r := by
  obtain ⟨ts, outlook, maxDepth, counts, same, within⟩ := h
  obtain ⟨⟨ts', last, outlook', within'⟩, free, depth⟩ := h'
  refine ⟨⟨ts ++ ts', last, ?_, ?_⟩, free, depth.depth.trans counts, depth.maxDepth.trans maxDepth⟩
  · rw [outlook, outlook']
    rfl
  · rw [firstBeyond_append within, same, ← counts, ← maxDepth]
    exact within'

/-- A token that is in the wrong place is the last one that was taken. -/
theorem Yields.stops (h : p.Yields t q) (raises : p.outlook.Raises e) (none : e.opened = 0) :
    p.Stops e [] p.outlook q := by
  refine ⟨rfl, raises, rfl, h.free, ?_, h.depth.maxDepth, fun t' more tokens => ?_, fun one => ?_⟩
  · rw [none, h.depth.depth]
    rfl
  · rw [h.outlook] at tokens ⊢
    split at tokens
    · cases tokens
    · next inner =>
      rw [if_neg inner]
      obtain ⟨-, rfl⟩ := List.cons.inj tokens
      rfl
  · rw [none] at one
    cases one

end Parser

namespace Parsing

open Run TreeQuery.Parser

variable {α β : Type} {p q r : Parser} {t : Token} {good mid : Parser → Prop}
  {level depth closed less : Nat}

/-- Started at `q`, the run leads on from `p` to a place that is as stated, or stops at an error. -/
def Proceeds (p q : Parser) (r : Parsing α) (good : Parser → Prop) : Prop :=
  ∀ result q', r.outcome q = some (result, q') →
    match result with
    | .ok _ => good q'
    | .error e => ∃ ts c, p.Stops e ts c q'

/-! ### One run after the other -/

theorem proceeds_cutOff : Proceeds p q (.cutOff : Parsing α) good :=
  fun _ _ h => nomatch h

theorem proceeds_pure {a : α} (h : good q) : Proceeds p q (pure a) good := by
  intro result q' ho
  cases ho
  exact h

theorem Proceeds.bind {r : Parsing α} {f : α → Parsing β} (h : Proceeds p q r mid)
    (hf : ∀ a q', mid q' → Proceeds p q' (f a) good) : Proceeds p q (r >>= f) good := by
  intro result q' ho
  rw [outcome_bind] at ho
  split at ho
  · cases ho
  · next a q₁ first => exact hf a q₁ (h _ _ first) result q' ho
  · next e q₁ first =>
    cases ho
    exact h _ _ first

theorem Proceeds.mono {r : Parsing α} (h : Proceeds p q r mid)
    (weaker : ∀ q', mid q' → good q') : Proceeds p q r good := by
  intro result q' ho
  have met := h result q' ho
  cases result with
  | ok a => exact weaker q' met
  | error e => exact met

/-- What leads on from a place leads on from where this place was reached. -/
theorem Proceeds.since {q' : Parser} {r : Parsing α} (reached : p.Reaches depth depth q)
    (h : Proceeds q q' r good) : Proceeds p q' r good := by
  intro result q'' ho
  have met := h result q'' ho
  cases result with
  | ok a => exact met
  | error e =>
    obtain ⟨ts, c, stops⟩ := met
    obtain ⟨ts', stops'⟩ := reached.stops stops
    exact ⟨ts', c, stops'⟩

/-- Wherever the run starts, it leads to a place where `closed` mappings less are open, and the
parser counts `less` less. -/
def Leads (closed less : Nat) (r : Parsing α) : Prop :=
  ∀ p, Proceeds p p r (p.Reaches (p.depth - closed) (p.depth - less))

/-- A run that closes whatever it opens. -/
def Balanced (r : Parsing α) : Prop := Leads 0 0 r

/-- Where nothing more is open, a run leads to the same places as from the beginning. -/
theorem Leads.further {r : Parsing α} (h : Leads closed less r)
    (reached : p.Reaches depth depth q) :
    Proceeds p q r (p.Reaches (depth - closed) (depth - less)) := by
  have same : q.depth = depth := by
    obtain ⟨-, -, -, counts, -⟩ := reached
    exact counts
  refine .since reached ((h q).mono fun q' further => ?_)
  rw [same] at further
  exact reached.trans further

theorem Balanced.further {r : Parsing α} (h : Balanced r) (reached : p.Reaches depth depth q) :
    Proceeds p q r (p.Reaches depth depth) :=
  Leads.further h reached

theorem Balanced.leads {r : Parsing α} {f : α → Parsing β} (h : Balanced r)
    (hf : ∀ a, Leads closed less (f a)) : Leads closed less (r >>= f) :=
  fun p => (h p).bind fun a _ reached => (hf a).further reached

theorem Balanced.bind {r : Parsing α} {f : α → Parsing β} (h : Balanced r)
    (hf : ∀ a, Balanced (f a)) : Balanced (r >>= f) :=
  h.leads hf

theorem Leads.map {r : Parsing α} {f : α → β} (h : Leads closed less r) :
    Leads closed less (r >>= fun a => pure (f a)) :=
  fun p => (h p).bind fun _ _ reached => proceeds_pure reached

theorem Balanced.map {r : Parsing α} {f : α → β} (h : Balanced r) :
    Balanced (r >>= fun a => pure (f a)) :=
  Leads.map h

theorem leads_cutOff : Leads closed less (.cutOff : Parsing α) :=
  fun _ => proceeds_cutOff

/-! ### Taking tokens -/

/-- A quote that is never closed was not handed back, so the parser is as before it. -/
theorem stops_of_next {e : ParseError} (h : next.outcome p = some (.error e, q)) :
    p.Stops e [] p.outlook q := by
  obtain ⟨fault, rfl, outlook⟩ := next_yields p _ _ h
  simp only [next, outcome_ofOutcome] at h
  split at h
  · cases h
  · next held =>
    split at h <;> cases h
    refine ⟨rfl, ?_, rfl, held, rfl, rfl, fun t more tokens => ?_, fun one => ?_⟩
    · rw [outlook]
      exact rfl
    · rw [outlook] at tokens
      cases tokens
    · cases one

theorem proceeds_next {f : Token → Parsing β}
    (h : ∀ t q, p.Yields t q → Proceeds p q (f t) good) : Proceeds p p (next >>= f) good := by
  intro result q' ho
  rw [outcome_bind] at ho
  split at ho
  · cases ho
  · next t q first => exact h t q (next_yields p _ _ first) result q' ho
  · next e q first =>
    cases ho
    exact ⟨[], p.outlook, stops_of_next first⟩

theorem proceeds_unread {f : Unit → Parsing β} (yields : p.Yields t q)
    (h : ∀ q', p.Reaches p.depth p.depth q' → Proceeds p q' (f ()) good) :
    Proceeds p q (unread t >>= f) good := by
  intro result q' ho
  rw [outcome_bind] at ho
  have back : Meets (unread t) q (fun _ q' => p.Consumes [] q') fun _ => False :=
    unread_consumes yields
  split at ho
  · cases ho
  · next q₁ first => exact h q₁ (back _ _ first).reaches result q' ho
  · next e q₁ first => exact (back _ _ first).elim

theorem proceeds_throw {e : ParseError} (yields : p.Yields t q) (raises : p.outlook.Raises e)
    (none : e.opened = 0) : Proceeds p q (throw e : Parsing α) good := by
  intro result q' ho
  cases ho
  exact ⟨[], p.outlook, yields.stops raises none⟩

theorem proceeds_refuse {expected : Expectation} (yields : p.Yields t q) :
    Proceeds p q (refuse t expected : Parsing α) good :=
  proceeds_throw yields (yields.raises_ofToken expected) (ParseError.opened_ofToken t expected)

/-- A mapping that is too deep is counted all the same. -/
theorem stops_of_enter {e : ParseError} (yields : p.Yields t q) (kind : t.kind = .leftBrace)
    (h : (enter t.position).outcome q = some (.error e, r)) : p.Stops e [] p.outlook r := by
  have inner : t.kind ≠ .finish := by rw [kind]; decide
  have outlook := (yields.consumes inner).outlook
  simp only [enter, outcome_ofOutcome] at h
  split at h <;> cases h
  next above =>
  rw [yields.depth.depth, yields.depth.maxDepth] at above
  constructor
  case outlook => rfl
  case raises => exact yields.raises inner trivial rfl
  case within => rfl
  case free => exact yields.free
  case depth => exact congrArg (· + 1) yields.depth.depth
  case maxDepth => exact yields.depth.maxDepth
  case rest =>
    intro t' more tokens
    rw [outlook] at tokens ⊢
    obtain ⟨-, rfl⟩ := List.cons.inj tokens
    rfl
  case full =>
    intro _
    refine ⟨Nat.le_of_lt_succ above, by rw [yields.depth.maxDepth]; rfl, t, q.outlook.tokens, ?_,
      kind⟩
    rw [outlook]
    rfl

theorem proceeds_enter {f : Unit → Parsing β} (yields : p.Yields t q) (kind : t.kind = .leftBrace)
    (h : ∀ q', p.Reaches (p.depth + 1) (p.depth + 1) q' → Proceeds p q' (f ()) good) :
    Proceeds p q (enter t.position >>= f) good := by
  intro result q' ho
  rw [outcome_bind] at ho
  split at ho
  · cases ho
  · next q₁ first =>
    simp only [enter, outcome_ofOutcome] at first
    split at first <;> cases first
    next below =>
    rw [yields.depth.depth, yields.depth.maxDepth] at below
    exact h _ (yields.reaches_of_leftBrace kind (by omega)) result q' ho
  · next e q₁ first =>
    cases ho
    exact ⟨[], p.outlook, stops_of_enter yields kind first⟩

/-- After a mapping was closed it is no longer counted. -/
theorem proceeds_leave {f : Unit → Parsing β} (closed : p.Reaches (depth - 1) depth q)
    (h : ∀ q', p.Reaches (depth - 1) (depth - 1) q' → Proceeds p q' (f ()) good) :
    Proceeds p q (leave >>= f) good := by
  intro result q' ho
  rw [outcome_bind] at ho
  obtain ⟨ts, outlook, maxDepth, counts, level, within⟩ := closed
  refine h { q with depth := q.depth - 1 } ⟨ts, outlook, maxDepth, ?_, level, within⟩ result q' ho
  rw [counts]

/-! ### Numbers and selectors -/

theorem proceeds_numberOf (yields : p.Yields t q) (kind : t.kind = .number) :
    Proceeds p q (numberOf t) (p.Reaches p.depth p.depth) := by
  unfold numberOf
  split
  · exact proceeds_pure (yields.reaches (by rw [kind]; rfl))
  · exact proceeds_throw yields (yields.raises (by rw [kind]; decide) trivial rfl) rfl

theorem proceeds_indexOf (yields : p.Yields t q) (kind : t.kind = .number) :
    Proceeds p q (indexOf t) (p.Reaches p.depth p.depth) := by
  unfold indexOf
  dsimp only
  split
  · exact proceeds_pure (yields.reaches (by rw [kind]; rfl))
  · exact proceeds_throw yields (yields.raises (by rw [kind]; decide) trivial rfl) rfl

theorem balanced_bracket (n : Nat) (b : Bracket) : Balanced (bracket n b) := by
  induction n generalizing b with
  | zero => exact leads_cutOff
  | succ n ih =>
    intro p
    unfold bracket
    refine proceeds_next fun t q yields => ?_
    split
    · next kind _ _ =>
      exact (proceeds_indexOf yields kind).bind fun i q' reached => (ih _).further reached
    · next kind _ _ =>
      exact (proceeds_indexOf yields kind).bind fun i q' reached => (ih _).further reached
    · next kind _ => exact (ih _).further (yields.reaches (by rw [kind]; rfl))
    · next kind => exact proceeds_pure (yields.reaches (by rw [kind]; rfl))
    · exact proceeds_refuse yields

theorem balanced_steps (n : Nat) : Balanced (steps n) := by
  induction n with
  | zero => exact leads_cutOff
  | succ n ih =>
    intro p
    unfold steps
    refine proceeds_next fun t q yields => ?_
    split
    · next kind =>
      refine Balanced.further ?_ (yields.reaches (by rw [kind]; rfl))
      intro p
      refine proceeds_next fun name q yields => ?_
      split
      · next isName =>
        exact ih.map.further (yields.reaches (TokenKind.isPlain_of_isName isName))
      · exact proceeds_unread yields fun q' back => ih.further back
    · next kind =>
      exact ((balanced_bracket n _).bind fun _ => ih.map).further
        (yields.reaches (by rw [kind]; rfl))
    · exact proceeds_unread yields fun q' back => proceeds_pure back

/-! ### Filters -/

/-- With an allowance of `n`, all productions close what they open. A mapping begins behind the
brace that opened it; its entries close it, but leave it to the mapping to take it off the count. -/
structure AllLead (n : Nat) : Prop where
  chain : Balanced (chain n)
  stages : Balanced (stages n)
  sum : Balanced (sum n)
  summands : ∀ left, Balanced (summands n left)
  product : Balanced (product n)
  factors : ∀ left, Balanced (factors n left)
  operand : Balanced (operand n)
  mapping : Leads 1 1 (mapping n)
  entries : Leads 1 0 (entries n)

variable {n : Nat}

theorem AllLead.stages_succ (ih : AllLead n) : Balanced (Parsing.stages (n + 1)) := by
  intro p
  unfold Parsing.stages
  refine proceeds_next fun t q yields => ?_
  split
  · next kind =>
    exact (ih.sum.bind fun _ => ih.stages.map).further (yields.reaches (by rw [kind]; rfl))
  · exact proceeds_unread yields fun q' back => proceeds_pure back

theorem AllLead.summands_succ (ih : AllLead n) (left : Filter) :
    Balanced (Parsing.summands (n + 1) left) := by
  intro p
  unfold Parsing.summands
  refine proceeds_next fun t q yields => ?_
  split
  · next kind =>
    exact (ih.product.bind fun _ => ih.summands _).further (yields.reaches (by rw [kind]; rfl))
  · next kind => exact proceeds_throw yields (yields.raises (by rw [kind]; decide) trivial rfl) rfl
  · next kind => exact proceeds_throw yields (yields.raises (by rw [kind]; decide) trivial rfl) rfl
  · exact proceeds_unread yields fun q' back => proceeds_pure back

theorem AllLead.factors_succ (ih : AllLead n) (left : Filter) :
    Balanced (Parsing.factors (n + 1) left) := by
  intro p
  unfold Parsing.factors
  refine proceeds_next fun t q yields => ?_
  split
  · next kind =>
    exact (ih.operand.bind fun _ => ih.factors _).further (yields.reaches (by rw [kind]; rfl))
  · exact proceeds_unread yields fun q' back => proceeds_pure back

theorem AllLead.operand_succ (ih : AllLead n) : Balanced (Parsing.operand (n + 1)) := by
  intro p
  unfold Parsing.operand
  refine proceeds_next fun t q yields => ?_
  split
  · exact proceeds_unread yields fun q' back => (balanced_steps n).map.further back
  · exact proceeds_unread yields fun q' back => (balanced_steps n).map.further back
  · next kind => exact (proceeds_numberOf yields kind).bind fun _ _ reached => proceeds_pure reached
  · next kind =>
    refine Balanced.further ?_ (yields.reaches (by rw [kind]; rfl))
    intro p
    refine proceeds_next fun number q yields => ?_
    split
    · next kind =>
      exact (proceeds_numberOf yields kind).bind fun _ _ reached => proceeds_pure reached
    · exact proceeds_refuse yields
  · next kind => exact proceeds_pure (yields.reaches (by rw [kind]; rfl))
  · next kind => exact proceeds_pure (yields.reaches (by rw [kind]; rfl))
  · next kind => exact proceeds_enter yields kind fun q' opened => ih.mapping.further opened
  · exact proceeds_refuse yields

theorem AllLead.mapping_succ (ih : AllLead n) : Leads 1 1 (Parsing.mapping (n + 1)) := by
  intro p
  unfold Parsing.mapping
  refine proceeds_next fun first q yields => ?_
  split
  · next kind =>
    exact proceeds_leave (yields.reaches_of_rightBrace kind) fun q' closed => proceeds_pure closed
  · exact proceeds_unread yields fun q' back => (ih.entries.further back).bind fun _ q'' closed =>
      proceeds_leave closed fun _ closed => proceeds_pure closed

theorem AllLead.entries_succ (ih : AllLead n) : Leads 1 0 (Parsing.entries (n + 1)) := by
  intro p
  unfold Parsing.entries
  refine proceeds_next fun name q yields => ?_
  split
  · next isName =>
    refine Leads.further ?_ (yields.reaches (TokenKind.isPlain_of_isName isName))
    intro p
    refine proceeds_next fun colon q yields => ?_
    split
    · next kind =>
      refine Leads.further ?_ (yields.reaches (by rw [kind]; rfl))
      refine ih.chain.leads fun value p => proceeds_next fun t q yields => ?_
      split
      · next kind => exact ih.entries.map.further (yields.reaches (by rw [kind]; rfl))
      · next kind => exact proceeds_pure (yields.reaches_of_rightBrace kind)
      · exact proceeds_refuse yields
    · exact proceeds_refuse yields
  · exact proceeds_refuse yields

theorem AllLead.succ (ih : AllLead n) : AllLead (n + 1) where
  chain := by
    unfold Parsing.chain
    exact ih.sum.bind fun _ => ih.stages.map
  stages := ih.stages_succ
  sum := by
    unfold Parsing.sum
    exact ih.product.bind ih.summands
  summands := ih.summands_succ
  product := by
    unfold Parsing.product
    exact ih.operand.bind ih.factors
  factors := ih.factors_succ
  operand := ih.operand_succ
  mapping := ih.mapping_succ
  entries := ih.entries_succ

theorem allLead (n : Nat) : AllLead n := by
  induction n with
  | zero => constructor <;> intros <;> exact leads_cutOff
  | succ n ih => exact ih.succ

/-! ### Programs -/

theorem proceeds_chains (n : Nat) : ∀ p, Proceeds p p (chains n) p.Ends := by
  induction n with
  | zero => exact fun _ => proceeds_cutOff
  | succ n ih =>
    intro p
    unfold chains
    refine proceeds_next fun t q yields => ?_
    split
    · next kind =>
      have further := (allLead n).chain.further (yields.reaches (by rw [kind]; rfl))
      refine further.bind fun _ q' reached => ?_
      have ends : Proceeds p q' (chains n) p.Ends :=
        .since reached ((ih q').mono fun _ => reached.ends)
      exact ends.bind fun _ _ ends => proceeds_pure ends
    · next kind => exact proceeds_pure (yields.ends kind)
    · exact proceeds_refuse yields

theorem proceeds_program (n : Nat) (p : Parser) : Proceeds p p (Parsing.program n) p.Ends := by
  unfold Parsing.program
  refine ((allLead n).chain p).bind fun _ q reached => ?_
  have ends : Proceeds p q (chains n) p.Ends :=
    .since reached ((proceeds_chains n q).mono fun _ => reached.ends)
  exact ends.bind fun _ _ ends => proceeds_pure ends

end Parsing

namespace Parser

variable {p q : Parser}

/-- Where a program ends. -/
theorem ends_of_program {chains : Filter × List Filter} (h : p.program = (.ok chains, q)) :
    p.Ends q := by
  have outcome := p.outcome_program (Nat.le_refl _)
  rw [h] at outcome
  exact Parsing.proceeds_program p.allowance p _ _ outcome

/-- Where a program stops at an error. -/
theorem stops_of_program {e : ParseError} (h : p.program = (.error e, q)) :
    ∃ ts c, p.Stops e ts c q := by
  have outcome := p.outcome_program (Nat.le_refl _)
  rw [h] at outcome
  exact Parsing.proceeds_program p.allowance p _ _ outcome

/-- A mapping is too deep only at the first brace that opens one level too many, counted from the
mappings that were open before. -/
theorem exists_brace_of_tooDeep {limit : Nat} {position : Position}
    (h : p.program.1 = .error (.tooDeep limit position)) : limit = p.maxDepth ∧
      ∃ t, firstBeyond p.maxDepth p.depth p.outlook.tokens = some t ∧ t.position = position := by
  obtain ⟨ts, c, stops⟩ := stops_of_program (Prod.ext h rfl : p.program = (_, p.program.2))
  obtain ⟨full, same, t, more, tokens, kind⟩ := stops.full rfl
  have whole : p.outlook.tokens = ts ++ t :: more := by
    rw [stops.outlook, Outlook.behind, tokens]
  have place := stops.raises.position
  rw [Outlook.place, tokens] at place
  cases same
  refine ⟨rfl, t, ?_, place.symm⟩
  rw [whole]
  exact firstBeyond_append_cons stops.within kind full

end Parser

end TreeQuery
