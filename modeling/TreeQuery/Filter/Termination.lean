import TreeQuery.Filter.Production

/-!
# Parsing comes to an end

Every production takes tokens, so the nested calls that it makes are bounded by what is left of the
text. The proof also shows that no token is ever handed back where there is no room for it: that
would have no outcome.

## Main definitions

* `Parser.pending` — a bound on the tokens that are left

## Main results

* `Parsing.suffices_all` — four nested calls for each token, and a few more, suffice
* `Parsing.program_ends` — the same for whole programs
-/

namespace TreeQuery

namespace Parsing

/-- How much a token counts towards what is left: the end of the text may come again and again. -/
def weight (t : Token) : Nat := if t.kind = .finish then 0 else 1

end Parsing

/-- A bound on the tokens that are left, the end not counted. -/
def Parser.pending (p : Parser) : Nat :=
  p.scanner.rest.length + (p.handedBack.map Parsing.weight).getD 0

namespace Parsing

open Run

theorem weight_eq_one {t : Token} (h : t.kind ≠ .finish) : weight t = 1 := by
  simp [weight, h]

/-- Taking a token ends, leaves the room for a token free, and reduces what is left. -/
theorem next_ends (p : Parser) :
    Ends next p fun t p' => p'.handedBack = none ∧ p'.pending + weight t ≤ p.pending ∧
      ∀ t', p.handedBack = some t' → t = t' := by
  cases h : p.handedBack with
  | some t =>
    refine ⟨.ok t, { p with handedBack := none }, by simp [next, h], fun t' ht => ?_⟩
    cases ht
    refine ⟨rfl, ?_, fun _ h' => Option.some.inj h'⟩
    simp [Parser.pending, h]
  | none =>
    cases hn : p.scanner.next.1 with
    | error fault =>
      exact ⟨.error (.unclosedQuote fault), { p with scanner := p.scanner.next.2 },
        by simp only [next, outcome_ofOutcome, h]; split <;> simp_all, fun _ h' => nomatch h'⟩
    | ok t =>
      refine ⟨.ok t, { p with scanner := p.scanner.next.2 },
        by simp only [next, outcome_ofOutcome, h]; split <;> simp_all, fun t' ht => ?_⟩
      cases ht
      refine ⟨h, ?_, fun _ h' => nomatch h'⟩
      simp only [Parser.pending, h, Option.map_none, Option.getD_none, Nat.add_zero]
      by_cases hk : t.kind = .finish
      · simp [weight, hk, Scanner.length_next_le]
      · rw [weight_eq_one hk]
        exact Scanner.length_next_lt hn hk

/-- Handing a token back ends where there is room for it. -/
theorem unread_ends {p : Parser} (t : Token) (h : p.handedBack = none) :
    Ends (unread t) p fun _ p' => p'.handedBack = some t ∧ p'.pending = p.pending + weight t :=
  ⟨.ok (), { p with handedBack := some t }, by simp [unread, h], fun _ _ =>
    ⟨rfl, by simp [Parser.pending, h]⟩⟩

theorem refuse_ends {α : Type} {found : Token} {expected : Expectation} {p : Parser}
    {post : α → Parser → Prop} : Ends (refuse found expected) p post :=
  ends_throw

theorem numberOf_ends {t : Token} {p : Parser} :
    Ends (numberOf t) p fun _ p' => p' = p := by
  unfold numberOf
  split
  · exact ends_pure rfl
  · exact ends_throw

theorem indexOf_ends {t : Token} {p : Parser} :
    Ends (indexOf t) p fun _ p' => p' = p := by
  unfold indexOf
  dsimp only
  split
  · exact ends_pure rfl
  · exact ends_throw

theorem enter_ends {position : Position} {p : Parser} :
    Ends (enter position) p fun _ p' => p'.pending = p.pending := by
  by_cases h : p.depth + 1 > p.maxDepth
  · exact ⟨.error (.tooDeep p.maxDepth position), { p with depth := p.depth + 1 },
      by simp only [enter, outcome_ofOutcome, if_pos h], fun _ h' => nomatch h'⟩
  · exact ⟨.ok (), { p with depth := p.depth + 1 },
      by simp only [enter, outcome_ofOutcome, if_neg h], fun _ _ => rfl⟩

theorem leave_ends {p : Parser} : Ends leave p fun _ p' => p'.pending = p.pending :=
  ends_change rfl

theorem bracket_ends (n : Nat) (b : Bracket) (p : Parser) (h : p.pending + 1 ≤ n) :
    Ends (bracket n b) p fun _ p' => p'.pending ≤ p.pending := by
  induction n generalizing b p with
  | zero => omega
  | succ n ih =>
    refine (next_ends p).bind fun t p₁ ⟨_, left, _⟩ => ?_
    split
    · next hk _ _ =>
      rw [weight_eq_one (by simp [hk])] at left
      refine indexOf_ends.bind fun i p₂ same => ?_
      subst same
      exact (ih _ _ (by omega)).mono fun _ _ _ => by omega
    · next hk _ _ =>
      rw [weight_eq_one (by simp [hk])] at left
      refine indexOf_ends.bind fun i p₂ same => ?_
      subst same
      exact (ih _ _ (by omega)).mono fun _ _ _ => by omega
    · next hk _ =>
      rw [weight_eq_one (by simp [hk])] at left
      exact (ih _ _ (by omega)).mono fun _ _ _ => by omega
    · exact ends_pure (by omega)
    · exact refuse_ends

theorem steps_ends (n : Nat) (p : Parser) (h : 2 * p.pending + 2 ≤ n) :
    Ends (steps n) p fun _ p' => p'.pending ≤ p.pending ∧
      ((∃ t, p.handedBack = some t ∧ (t.kind = .dot ∨ t.kind = .leftBracket)) →
        p'.pending < p.pending) := by
  induction n generalizing p with
  | zero => omega
  | succ n ih =>
    refine (next_ends p).bind fun t p₁ ⟨free, left, same⟩ => ?_
    split
    · next hk =>
      rw [weight_eq_one (by simp [hk])] at left
      refine (next_ends p₁).bind fun name p₂ ⟨free', left', _⟩ => ?_
      split
      · exact (ih p₂ (by omega)).bind fun _ _ ⟨_, _⟩ => ends_pure ⟨by omega, fun _ => by omega⟩
      · exact (unread_ends name free').bind fun _ p₃ ⟨_, _⟩ =>
          (ih p₃ (by omega)).mono fun _ _ ⟨_, _⟩ => ⟨by omega, fun _ => by omega⟩
    · next hk =>
      rw [weight_eq_one (by simp [hk])] at left
      exact (bracket_ends n _ p₁ (by omega)).bind fun _ p₂ _ =>
        (ih p₂ (by omega)).bind fun _ _ ⟨_, _⟩ => ends_pure ⟨by omega, fun _ => by omega⟩
    · next notDot notBracket =>
      refine (unread_ends t free).bind fun _ p₂ ⟨_, _⟩ => ends_pure ⟨by omega, ?_⟩
      rintro ⟨t', held, kind⟩
      rw [← same t' held] at kind
      exact (kind.elim notDot notBracket).elim

/-- What an allowance of `n` suffices for. -/
structure Suffices (n : Nat) : Prop where
  chain : ∀ p, 4 * p.pending + 4 ≤ n → Ends (chain n) p fun _ p' => p'.pending < p.pending
  stages : ∀ p, 4 * p.pending + 1 ≤ n → Ends (stages n) p fun _ p' => p'.pending ≤ p.pending
  sum : ∀ p, 4 * p.pending + 3 ≤ n → Ends (sum n) p fun _ p' => p'.pending < p.pending
  summands : ∀ p left, 4 * p.pending + 1 ≤ n →
    Ends (summands n left) p fun _ p' => p'.pending ≤ p.pending
  product : ∀ p, 4 * p.pending + 2 ≤ n → Ends (product n) p fun _ p' => p'.pending < p.pending
  factors : ∀ p left, 4 * p.pending + 1 ≤ n →
    Ends (factors n left) p fun _ p' => p'.pending ≤ p.pending
  operand : ∀ p, 4 * p.pending + 1 ≤ n → Ends (operand n) p fun _ p' => p'.pending < p.pending
  mapping : ∀ p, 4 * p.pending + 2 ≤ n → Ends (mapping n) p fun _ p' => p'.pending ≤ p.pending
  entries : ∀ p, 4 * p.pending + 1 ≤ n → Ends (entries n) p fun _ p' => p'.pending ≤ p.pending

theorem Suffices.stages_succ {n : Nat} (ih : Suffices n) (p : Parser)
    (h : 4 * p.pending + 1 ≤ n + 1) :
    Ends (Parsing.stages (n + 1)) p fun _ p' => p'.pending ≤ p.pending := by
  refine (next_ends p).bind fun t p₁ ⟨free, left, _⟩ => ?_
  split
  · next hk =>
    rw [weight_eq_one (by simp [hk])] at left
    exact (ih.sum p₁ (by omega)).bind fun _ p₂ _ =>
      (ih.stages p₂ (by omega)).bind fun _ _ _ => ends_pure (by omega)
  · exact (unread_ends t free).bind fun _ _ ⟨_, _⟩ => ends_pure (by omega)

theorem Suffices.summands_succ {n : Nat} (ih : Suffices n) (p : Parser) (left : Filter)
    (h : 4 * p.pending + 1 ≤ n + 1) :
    Ends (Parsing.summands (n + 1) left) p fun _ p' => p'.pending ≤ p.pending := by
  refine (next_ends p).bind fun t p₁ ⟨free, left, _⟩ => ?_
  split
  · next hk =>
    rw [weight_eq_one (by simp [hk])] at left
    exact (ih.product p₁ (by omega)).bind fun _ p₂ _ =>
      (ih.summands p₂ _ (by omega)).mono fun _ _ _ => by omega
  · exact ends_throw
  · exact ends_throw
  · exact (unread_ends t free).bind fun _ _ ⟨_, _⟩ => ends_pure (by omega)

theorem Suffices.factors_succ {n : Nat} (ih : Suffices n) (p : Parser) (left : Filter)
    (h : 4 * p.pending + 1 ≤ n + 1) :
    Ends (Parsing.factors (n + 1) left) p fun _ p' => p'.pending ≤ p.pending := by
  refine (next_ends p).bind fun t p₁ ⟨free, left, _⟩ => ?_
  split
  · next hk =>
    rw [weight_eq_one (by simp [hk])] at left
    exact (ih.operand p₁ (by omega)).bind fun _ p₂ _ =>
      (ih.factors p₂ _ (by omega)).mono fun _ _ _ => by omega
  · exact (unread_ends t free).bind fun _ _ ⟨_, _⟩ => ends_pure (by omega)

theorem Suffices.operand_succ {n : Nat} (ih : Suffices n) (p : Parser)
    (h : 4 * p.pending + 1 ≤ n + 1) :
    Ends (Parsing.operand (n + 1)) p fun _ p' => p'.pending < p.pending := by
  refine (next_ends p).bind fun t p₁ ⟨free, left, _⟩ => ?_
  have path (hk : t.kind = .dot ∨ t.kind = .leftBracket) :
      Ends (unread t >>= fun _ => steps n >>= fun s => pure (Filter.ofSteps s)) p₁
        fun _ p' => p'.pending < p.pending := by
    have one : weight t = 1 := weight_eq_one (by rcases hk with hk | hk <;> simp [hk])
    exact (unread_ends t free).bind fun _ p₂ ⟨held, _⟩ =>
      (steps_ends n p₂ (by omega)).bind fun _ _ ⟨_, strict⟩ =>
        ends_pure (by have := strict ⟨t, held, hk⟩; omega)
  split
  · next hk => exact path (.inl hk)
  · next hk => exact path (.inr hk)
  · next hk =>
    rw [weight_eq_one (by simp [hk])] at left
    exact numberOf_ends.bind fun _ _ same => ends_pure (by subst same; omega)
  · next hk =>
    rw [weight_eq_one (by simp [hk])] at left
    refine (next_ends p₁).bind fun number p₂ ⟨_, left', _⟩ => ?_
    split
    · exact numberOf_ends.bind fun _ _ same => ends_pure (by subst same; omega)
    · exact refuse_ends
  · next hk =>
    rw [weight_eq_one (by simp [hk])] at left
    exact ends_pure (by omega)
  · next hk =>
    rw [weight_eq_one (by simp [hk])] at left
    exact ends_pure (by omega)
  · next hk =>
    rw [weight_eq_one (by simp [hk])] at left
    exact enter_ends.bind fun _ p₂ _ =>
      (ih.mapping p₂ (by omega)).mono fun _ _ _ => by omega
  · exact refuse_ends

theorem Suffices.mapping_succ {n : Nat} (ih : Suffices n) (p : Parser)
    (h : 4 * p.pending + 2 ≤ n + 1) :
    Ends (Parsing.mapping (n + 1)) p fun _ p' => p'.pending ≤ p.pending := by
  refine (next_ends p).bind fun t p₁ ⟨free, left, _⟩ => ?_
  split
  · exact leave_ends.bind fun _ _ _ => ends_pure (by omega)
  · exact (unread_ends t free).bind fun _ p₂ ⟨_, _⟩ =>
      (ih.entries p₂ (by omega)).bind fun _ _ _ =>
        leave_ends.bind fun _ _ _ => ends_pure (by omega)

theorem Suffices.entries_succ {n : Nat} (ih : Suffices n) (p : Parser)
    (h : 4 * p.pending + 1 ≤ n + 1) :
    Ends (Parsing.entries (n + 1)) p fun _ p' => p'.pending ≤ p.pending := by
  refine (next_ends p).bind fun name p₁ ⟨_, left, _⟩ => ?_
  split
  · next hk =>
    rw [weight_eq_one (by intro h'; simp [h', TokenKind.isName] at hk)] at left
    refine (next_ends p₁).bind fun colon p₂ ⟨_, left', _⟩ => ?_
    split
    · next hc =>
      rw [weight_eq_one (by simp [hc])] at left'
      refine (ih.chain p₂ (by omega)).bind fun _ p₃ _ =>
        (next_ends p₃).bind fun t p₄ ⟨_, left'', _⟩ => ?_
      split
      · exact (ih.entries p₄ (by omega)).bind fun _ _ _ => ends_pure (by omega)
      · exact ends_pure (by omega)
      · exact refuse_ends
    · exact refuse_ends
  · exact refuse_ends

/-- An allowance of four nested calls for each token that is left, and a few more, suffices for
every production. -/
theorem suffices_all (n : Nat) : Suffices n := by
  induction n with
  | zero => constructor <;> (intros; omega)
  | succ n ih =>
    exact {
      chain := fun p _ => (ih.sum p (by omega)).bind fun _ p₁ _ =>
        (ih.stages p₁ (by omega)).bind fun _ _ _ => ends_pure (by omega)
      stages := ih.stages_succ
      sum := fun p _ => (ih.product p (by omega)).bind fun _ p₁ _ =>
        (ih.summands p₁ _ (by omega)).mono fun _ _ _ => by omega
      summands := ih.summands_succ
      product := fun p _ => (ih.operand p (by omega)).bind fun _ p₁ _ =>
        (ih.factors p₁ _ (by omega)).mono fun _ _ _ => by omega
      factors := ih.factors_succ
      operand := ih.operand_succ
      mapping := ih.mapping_succ
      entries := ih.entries_succ }

theorem chains_ends (n : Nat) (p : Parser) (h : 4 * p.pending + 1 ≤ n) :
    Ends (chains n) p fun _ p' => p'.pending ≤ p.pending := by
  induction n generalizing p with
  | zero => omega
  | succ n ih =>
    refine (next_ends p).bind fun t p₁ ⟨_, left, _⟩ => ?_
    split
    · next hk =>
      rw [weight_eq_one (by simp [hk])] at left
      exact ((suffices_all n).chain p₁ (by omega)).bind fun _ p₂ _ =>
        (ih p₂ (by omega)).bind fun _ _ _ => ends_pure (by omega)
    · exact ends_pure (by omega)
    · exact refuse_ends

/-- An allowance of four nested calls for each token that is left, and four more, suffices for a
program. In particular no token is ever handed back where there is no room for it. -/
theorem program_ends (p : Parser) (n : Nat) (h : 4 * p.pending + 4 ≤ n) :
    Ends (program n) p fun _ p' => p'.pending < p.pending :=
  ((suffices_all n).chain p h).bind fun _ p₁ _ =>
    (chains_ends n p₁ (by omega)).bind fun _ _ _ => ends_pure (by omega)

end Parsing

end TreeQuery
