import TreeQuery.Proofs.Grammar.Soundness
import TreeQuery.Proofs.Grammar.Unambiguity

/-!
# What stands in the grammar is parsed

A parser in front of a phrase finds what the phrase stands for, and stops right after it, as long as
what follows may follow. The proof goes by induction on the allowance, with the phrase taken apart
along with the production that reads it.

## Main definitions

* `Parsing.Finds` — a run gives one certain value and stops in front of certain lexemes

## Main statements

* `Parsing.complete_all` — each production finds the phrases of its line in the grammar
* `Parsing.program_finds` — so does a whole program, up to the end of the text
-/

namespace TreeQuery

namespace Parsing

open Run TreeQuery.Parser Grammar

variable {α β : Type} {p q : Parser} {t : Token} {l : Lexeme} {ls more : List Lexeme}

/-- Started at `q`, the run gives `a` and stops in front of `more`, with as many mappings open as at
`p`. It does not fail. -/
def Finds (p q : Parser) (r : Parsing α) (more : List Lexeme) (a : α) : Prop :=
  Meets r q (fun a' q' => a' = a ∧ q'.view = (more, none) ∧ SameDepth p q') fun _ => False

/-! ### One phrase after the other -/

section Rules

variable {a : α} {b : β} {mid : List Lexeme}

theorem finds_cutOff : Finds p q .cutOff more a :=
  meets_cutOff

theorem finds_pure (depth : SameDepth p q) (view : q.view = (more, none)) :
    Finds p q (pure a) more a :=
  meets_pure ⟨rfl, view, depth⟩

/-- As many mappings are open at `p` as at `q`, so it can stand for it. -/
theorem Finds.since {q' : Parser} {r : Parsing α} (depth : SameDepth p q)
    (h : Finds q q' r more a) :
    Finds p q' r more a := by
  refine h.mono ?_
  rintro a' q'' ⟨found, view, depth'⟩
  exact ⟨found, view, depth.trans depth'⟩

theorem Finds.bind {r : Parsing α} {f : α → Parsing β} (h : Finds q q r mid a)
    (hf : ∀ q', q'.view = (mid, none) → SameDepth q q' → Finds p q' (f a) more b) :
    Finds p q (r >>= f) more b := by
  refine Meets.bind h ?_
  rintro a' q' ⟨rfl, view, depth⟩
  exact hf q' view depth

/-- The next lexeme is what a token was taken for. -/
theorem finds_next {f : Token → Parsing β} (view : q.view = (l :: ls, none))
    (h : ∀ t q', q.Takes t q' → t.lexeme = l → q'.view = (ls, none) → Finds p q' (f t) more b) :
    Finds p q (next >>= f) more b := by
  refine (next_meets_of_cons view).bind ?_
  rintro t q' ⟨taken, same, view'⟩
  exact h t q' taken same view'

/-- A token is taken only to see whether the phrase goes on: the end is as good as a lexeme that may
follow. -/
theorem finds_look {f : Token → Parsing β} {ends : TokenKind → Bool} {rest : List Lexeme}
    (view : q.view = (rest, none)) (follows : Follows ends rest) (last : ends .finish)
    (h : ∀ t q', q.Takes t q' → ends t.kind → Finds p q' (f t) more b) :
    Finds p q (next >>= f) more b := by
  cases rest with
  | nil =>
    refine (next_meets_of_nil view).bind ?_
    rintro t q' ⟨taken, finish⟩
    exact h t q' taken (finish ▸ last)
  | cons l ls =>
    refine finds_next view fun t q' taken same _ => h t q' taken ?_
    rw [← Token.kind_lexeme, same]
    exact follows_cons.mp follows

theorem finds_unread {q₀ : Parser} {f : Unit → Parsing β} (taken : q₀.Takes t q)
    (h : ∀ q', q'.view = q₀.view → SameDepth q₀ q' → Finds p q' (f ()) more b) :
    Finds p q (unread t >>= f) more b := by
  refine (unread_meets taken).bind fun _ q' passed => h q' ?_ passed.depth
  rw [passed.view]
  rfl

theorem finds_enter {position : Position} {f : Unit → Parsing β} (below : q.depth < q.maxDepth)
    (h : Finds p { q with depth := q.depth + 1 } (f ()) more b) :
    Finds p q (enter position >>= f) more b := by
  have room : ¬ q.depth + 1 > q.maxDepth := by omega
  intro result s ho
  rw [outcome_bind] at ho
  simp only [enter, outcome_ofOutcome, if_neg room] at ho
  exact h result s ho

theorem finds_leave {f : Unit → Parsing β} (depth : SameDepth { p with depth := p.depth + 1 } q)
    (h : ∀ q', q'.view = q.view → SameDepth p q' → Finds p q' (f ()) more b) :
    Finds p q (leave >>= f) more b := by
  have closed : SameDepth p { q with depth := q.depth - 1 } := by
    refine ⟨?_, depth.maxDepth⟩
    rw [depth.depth, Nat.add_sub_cancel]
  have closing : Meets leave q (fun _ q' => q'.view = q.view ∧ SameDepth p q') fun _ => False :=
    meets_change ⟨rfl, closed⟩
  exact closing.bind fun _ q' ⟨view, depth⟩ => h q' view depth

end Rules

/-! ### Numbers and brackets -/

theorem numberOf_eq {x : Float} (number : IsNumber t.lexeme x) : numberOf t = pure x := by
  obtain ⟨d, value, rfl⟩ := Option.map_eq_some_iff.mp number.value
  rw [Token.text_lexeme] at value
  rw [numberOf, value]

theorem indexOf_eq {i : Nat} (index : IsIndex t.lexeme i) : indexOf t = pure i := by
  obtain ⟨_, nonempty, digits, value, bound⟩ := index
  rw [Token.text_lexeme] at nonempty digits value
  have accepted : (!t.text.toList.isEmpty && t.text.toList.all Char.isDigit &&
      decide (Nat.ofDigitChars 10 t.text.toList 0 < indexBound)) = true := by
    simp only [Bool.and_eq_true, Bool.not_eq_true', List.isEmpty_eq_false_iff, List.all_eq_true,
      decide_eq_true_eq]
    exact ⟨⟨nonempty, digits⟩, value ▸ bound⟩
  unfold indexOf
  dsimp only
  rw [if_pos accepted, value]

/-- If there is another lexeme between the brackets, the next state of knowledge takes it. -/
theorem Bracketed.further {ls inner : List Lexeme} {b : Bracket} {step : Selector}
    (h : Bracketed ls b) (range : Range (ls ++ l :: inner) step) :
    (∃ i, IsIndex l i ∧ b.colon = false ∧ b.start = none ∧
        Bracketed (ls ++ [l]) { b with start := some i }) ∨
      (∃ j, IsIndex l j ∧ b.colon = true ∧ b.stop = none ∧
        Bracketed (ls ++ [l]) { b with stop := some j }) ∨
      (l.kind = .colon ∧ b.colon = false ∧ Bracketed (ls ++ [l]) { b with colon := true }) := by
  cases h with
  | empty =>
    cases range with
    | index index => exact .inl ⟨_, index, rfl, rfl, .index index⟩
    | since start _ => exact .inl ⟨_, start, rfl, rfl, .index start⟩
    | between start _ _ => exact .inl ⟨_, start, rfl, rfl, .index start⟩
    | colon colon => exact .inr (.inr ⟨colon, rfl, .colon colon⟩)
    | upTo colon _ => exact .inr (.inr ⟨colon, rfl, .colon colon⟩)
  | index start =>
    cases range with
    | since _ colon => exact .inr (.inr ⟨colon, rfl, .since start colon⟩)
    | upTo colon _ => exact absurd colon start.not_colon
    | between _ colon _ => exact .inr (.inr ⟨colon, rfl, .since start colon⟩)
  | colon colon =>
    cases range with
    | since start _ => exact absurd colon start.not_colon
    | upTo _ stop => exact .inr (.inl ⟨_, stop, rfl, rfl, .upTo colon stop⟩)
    | between start _ _ => exact absurd colon start.not_colon
  | since start colon =>
    cases range with
    | between _ _ stop => exact .inr (.inl ⟨_, stop, rfl, rfl, .between start colon stop⟩)
  | upTo colon stop =>
    cases range with
    | between start _ _ => exact absurd colon start.not_colon
  | between start colon stop => cases range

/-- The rest of a pair of brackets is found, whatever is known already. -/
theorem bracket_finds (n : Nat) {ls inner : List Lexeme} {r : Lexeme} {b : Bracket}
    {step : Selector}
    (before : Bracketed ls b) (range : Range (ls ++ inner) step) (right : r.kind = .rightBracket)
    (view : p.view = (inner ++ r :: more, none)) : Finds p p (bracket n b) more step := by
  induction n generalizing p ls inner b with
  | zero => exact finds_cutOff
  | succ n ih =>
    unfold bracket
    cases inner with
    | nil =>
      refine finds_next view fun t q taken same rest => ?_
      have kind : t.kind = .rightBracket := by
        rw [← Token.kind_lexeme, same, right]
      have whole : step = b.toSelector := by
        rw [List.append_nil] at range
        exact range.unique before.range
      simp only [kind]
      rw [whole]
      exact finds_pure taken.depth rest
    | cons l inner =>
      refine finds_next view fun t q taken same rest => ?_
      have range' : Range ((ls ++ [l]) ++ inner) step := by
        rw [List.append_assoc]
        exact range
      have onward {b' : Bracket} (after : Bracketed (ls ++ [l]) b') :
          Finds p q (bracket n b') more step :=
        .since taken.depth (ih after range' rest)
      subst same
      rcases before.further range with ⟨i, index, colon, start, after⟩ |
        ⟨j, index, colon, stop, after⟩ | ⟨kind, colon, after⟩
      · have kind : t.kind = .number := index.kind
        rw [colon] at after
        simp only [kind, colon, start, indexOf_eq index, pure_bind]
        exact onward after
      · have kind : t.kind = .number := index.kind
        rw [colon] at after
        simp only [kind, colon, stop, indexOf_eq index, pure_bind]
        exact onward after
      · rw [Token.kind_lexeme] at kind
        simp only [kind, colon]
        exact onward after

/-! ### Operands without mappings -/

theorem steps_finds (n : Nat) {steps : List Selector} (segments : Segments ls steps)
    (view : p.view = (ls ++ more, none)) (follows : Follows endsOperand more) :
    Finds p p (Parsing.steps n) more steps := by
  induction n generalizing p ls steps with
  | zero => exact finds_cutOff
  | succ n ih =>
    unfold Parsing.steps
    cases segments with
    | nil =>
      refine finds_look view follows rfl fun t q taken ends => ?_
      split
      · next kind => exact absurd kind (ne_of_ends ends rfl)
      · next kind => exact absurd kind (ne_of_ends ends rfl)
      · refine finds_unread taken fun q' view' depth => finds_pure depth ?_
        rw [view', view]
        rfl
    | dot dot rest =>
      refine finds_next view fun t q taken same view' => ?_
      have kind : t.kind = .dot := by
        rw [← Token.kind_lexeme, same, dot]
      have nameless := rest.follows follows
      simp only [kind]
      refine finds_look view' nameless rfl fun name q' taken' noName => ?_
      simp only [Bool.not_eq_true'] at noName
      simp only [noName, Bool.false_eq_true, if_false]
      refine finds_unread taken' fun q'' view'' depth => ?_
      exact .since (taken.depth.trans depth) (ih rest (view''.trans view'))
    | key dot isName rest =>
      refine finds_next view fun t q taken same view' => ?_
      have kind : t.kind = .dot := by
        rw [← Token.kind_lexeme, same, dot]
      simp only [kind]
      refine finds_next view' fun name q' taken' same' view'' => ?_
      subst same'
      rw [Token.kind_lexeme] at isName
      rw [if_pos isName]
      refine .since (taken.depth.trans taken'.depth) ?_
      exact (ih rest view'').bind fun q'' view₃ depth => finds_pure depth view₃
    | bracket left range right rest =>
      rw [List.cons_append, List.append_assoc] at view
      refine finds_next view fun t q taken same view' => ?_
      have kind : t.kind = .leftBracket := by
        rw [← Token.kind_lexeme, same, left]
      simp only [kind]
      refine .since taken.depth ?_
      refine (bracket_finds n .empty range right view').bind fun q' view'' depth => ?_
      refine .since depth ?_
      exact (ih rest view'').bind fun q'' view₃ depth' => finds_pure depth' view₃

/-- An operand may be a few selectors. The first token is only looked at; the selectors begin with
it. -/
theorem operand_finds_selectors (n : Nat) {f : Filter} (selectors : Selectors ls f)
    (view : p.view = (ls ++ more, none)) (follows : Follows endsOperand more) :
    Finds p p (Parsing.operand (n + 1)) more f := by
  obtain ⟨l, rest, rfl, opened⟩ := selectors.opens
  obtain ⟨-, steps, segments, path⟩ := selectors
  unfold Parsing.operand
  refine finds_next view fun t q taken same _ => ?_
  subst same
  have again :
      Finds p q (unread t >>= fun _ => do return .ofSteps (← Parsing.steps n)) more f := by
    refine finds_unread taken fun q' view' depth => .since depth ?_
    refine (steps_finds n segments (view'.trans view) follows).bind fun q'' view'' depth' => ?_
    rw [path.unique (path_ofSteps steps)]
    exact finds_pure depth' view''
  rw [Token.kind_lexeme, opensSelectors_iff] at opened
  rcases opened with kind | kind <;> simp only [kind] <;> exact again

/-- An operand may be a literal, whatever follows. -/
theorem operand_finds_literal (n : Nat) {f : Filter} (literal : Literal ls f)
    (view : p.view = (ls ++ more, none)) : Finds p p (Parsing.operand (n + 1)) more f := by
  unfold Parsing.operand
  cases literal with
  | number number =>
    refine finds_next view fun t q taken same view' => ?_
    subst same
    have kind : t.kind = .number := number.kind
    simp only [kind, numberOf_eq number, pure_bind]
    exact finds_pure taken.depth view'
  | negative minus number =>
    refine finds_next view fun t q taken same view' => ?_
    subst same
    rw [Token.kind_lexeme] at minus
    simp only [minus]
    refine finds_next view' fun t' q' taken' same' view'' => ?_
    subst same'
    have kind : t'.kind = .number := number.kind
    simp only [kind, numberOf_eq number, pure_bind, if_true]
    exact finds_pure (taken.depth.trans taken'.depth) view''
  | quoted kind =>
    refine finds_next view fun t q taken same view' => ?_
    subst same
    rw [Token.kind_lexeme] at kind
    simp only [kind]
    exact finds_pure taken.depth view'
  | length kind text =>
    refine finds_next view fun t q taken same view' => ?_
    subst same
    rw [Token.kind_lexeme] at kind
    rw [Token.text_lexeme] at text
    simp only [kind, text, if_true]
    exact finds_pure taken.depth view'
  | text kind text =>
    refine finds_next view fun t q taken same view' => ?_
    subst same
    rw [Token.kind_lexeme] at kind
    rw [Token.text_lexeme] at text
    simp only [kind, if_neg text]
    exact finds_pure taken.depth view'

/-! ### Filters -/

/-- In front of a phrase where `d` more mappings may be opened, and with something behind it that
may follow, the production finds what the phrase stands for. -/
def FindsAll (d : Nat) (production : Parsing α) (Phrase : List Lexeme → α → Prop)
    (ends : TokenKind → Bool) : Prop :=
  ∀ ⦃p : Parser⦄ ⦃ls more : List Lexeme⦄ ⦃a : α⦄, p.room = d → Phrase ls a →
    p.view = (ls ++ more, none) → Follows ends more → Finds p p production more a

theorem findsAll_cutOff {d : Nat} {Phrase : List Lexeme → α → Prop} {ends : TokenKind → Bool} :
    FindsAll d .cutOff Phrase ends :=
  fun _ _ _ _ _ _ _ _ => finds_cutOff

/-- Behind an operator, a phrase is found and then whatever the run goes on with. -/
theorem FindsAll.behind {d : Nat} {production : Parsing α} {Phrase : List Lexeme → α → Prop}
    {ends : TokenKind → Bool} (finds : FindsAll d production Phrase ends) (goOn : α → Parsing β)
    {f : Token → Parsing β} {mid : List Lexeme} {a : α} {b : β} (room : p.room = d)
    (phrase : Phrase ls a) (view : p.view = (l :: (ls ++ mid), none)) (between : Follows ends mid)
    (shape : ∀ t : Token, t.kind = l.kind → f t = production >>= goOn)
    (rest : ∀ q, q.room = d → q.view = (mid, none) → Finds q q (goOn a) more b) :
    Finds p p (next >>= f) more b := by
  refine finds_next view fun t q taken same view' => ?_
  subst same
  rw [shape t (Token.kind_lexeme t).symm]
  have room' := taken.depth.room.trans room
  refine .since taken.depth ((finds room' phrase view' between).bind fun q' view'' depth => ?_)
  exact .since depth (rest q' (depth.room.trans room') view'')

/-- What the productions find with an allowance of `n`, where `d` more mappings may be opened. -/
structure Complete (n d : Nat) : Prop where
  chain : FindsAll d (chain n) (Chain d) endsChain
  stages : FindsAll d (stages n) (Trailing .pipe (Sum (MappingWithin d))) endsChain
  sum : FindsAll d (sum n) (Sum (MappingWithin d)) endsSum
  summands : ∀ left, FindsAll d (summands n left) (fun ls f =>
    ∃ rest, Trailing .plus (Product (MappingWithin d)) ls rest ∧
      f = rest.foldl (.binary .add) left) endsSum
  product : FindsAll d (product n) (Product (MappingWithin d)) endsProduct
  factors : ∀ left, FindsAll d (factors n left) (fun ls f =>
    ∃ rest, Trailing .star (Operand (MappingWithin d)) ls rest ∧
      f = rest.foldl (.binary .multiply) left) endsProduct
  operand : FindsAll d (operand n) (Operand (MappingWithin d)) endsOperand
  mapping : ∀ (p : Parser) (l : Lexeme) (ls more : List Lexeme) (f : Filter),
    p.room = d → MappingWithin d (l :: ls) f → p.view = (ls ++ more, none) →
      Finds p { p with depth := p.depth + 1 } (mapping n) more f
  entries : ∀ (p : Parser) (ls more : List Lexeme) (r : Lexeme) (es : List (String × Filter)),
    p.room = d → Separated .comma (Entry (Chain d)) ls es → r.kind = .rightBrace →
      p.view = (ls ++ r :: more, none) → Finds p p (entries n) more es

section Steps

variable {n d : Nat}

theorem Complete.chain_succ (ih : Complete n d) :
    FindsAll d (Parsing.chain (n + 1)) (Chain d) endsChain := by
  intro p _ more f room phrase view further
  obtain ⟨fs, ⟨first, rest⟩, join⟩ := phrase
  rw [List.append_assoc] at view
  have between := rest.follows rfl (further.mono endsSum_of_endsChain)
  have whole := (collapsed_ofStages _ _).unique join
  unfold Parsing.chain
  refine (ih.sum room first view between).bind fun q view' depth => ?_
  refine .since depth ?_
  refine (ih.stages (depth.room.trans room) rest view' further).bind fun q' view'' depth' => ?_
  rw [whole]
  exact finds_pure depth' view''

theorem Complete.stages_succ (ih : Complete n d) :
    FindsAll d (Parsing.stages (n + 1)) (Trailing .pipe (Sum (MappingWithin d))) endsChain := by
  intro p _ more fs room phrases view further
  unfold Parsing.stages
  cases phrases with
  | nil =>
    refine finds_look view further rfl fun t q taken ends => ?_
    rw [if_neg (ne_of_ends ends rfl)]
    exact finds_unread taken fun q' view' depth => finds_pure depth (view'.trans view)
  | cons kind first rest =>
    rw [List.cons_append, List.append_assoc] at view
    have between := rest.follows rfl (further.mono endsSum_of_endsChain)
    refine ih.sum.behind _ room first view between (fun t same => if_pos (same.trans kind))
      fun q room' view' => ?_
    exact (ih.stages room' rest view' further).bind fun q' view'' depth => finds_pure depth view''

theorem Complete.sum_succ (ih : Complete n d) :
    FindsAll d (Parsing.sum (n + 1)) (Sum (MappingWithin d)) endsSum := by
  intro p _ more f room phrase view further
  obtain ⟨fs, ⟨first, rest⟩, ⟨⟩⟩ := phrase
  rw [List.append_assoc] at view
  have between := rest.follows rfl (further.mono endsProduct_of_endsSum)
  unfold Parsing.sum
  refine (ih.product room first view between).bind fun q view' depth => ?_
  exact .since depth (ih.summands _ (depth.room.trans room) ⟨_, rest, rfl⟩ view' further)

theorem Complete.summands_succ (ih : Complete n d) (left : Filter) :
    FindsAll d (Parsing.summands (n + 1) left) (fun ls f =>
      ∃ rest, Trailing .plus (Product (MappingWithin d)) ls rest ∧
        f = rest.foldl (.binary .add) left) endsSum := by
  rintro p _ more _ room ⟨fs, phrases, rfl⟩ view further
  unfold Parsing.summands
  cases phrases with
  | nil =>
    refine finds_look view further rfl fun t q taken ends => ?_
    split
    · next kind => exact absurd kind (ne_of_ends ends rfl)
    · next kind => exact absurd kind (ne_of_ends ends rfl)
    · next kind => exact absurd kind (ne_of_ends ends rfl)
    · exact finds_unread taken fun q' view' depth => finds_pure depth (view'.trans view)
  | cons kind first rest =>
    rw [List.cons_append, List.append_assoc] at view
    have between := rest.follows rfl (further.mono endsProduct_of_endsSum)
    refine ih.product.behind (fun right => Parsing.summands n (.binary .add left right)) room first
      view between (fun t same => ?_)
      fun q room' view' => ih.summands _ room' ⟨_, rest, rfl⟩ view' further
    simp only [same.trans kind]

theorem Complete.product_succ (ih : Complete n d) :
    FindsAll d (Parsing.product (n + 1)) (Product (MappingWithin d)) endsProduct := by
  intro p _ more f room phrase view further
  obtain ⟨fs, ⟨first, rest⟩, ⟨⟩⟩ := phrase
  rw [List.append_assoc] at view
  have between := rest.follows rfl (further.mono endsOperand_of_endsProduct)
  unfold Parsing.product
  refine (ih.operand room first view between).bind fun q view' depth => ?_
  exact .since depth (ih.factors _ (depth.room.trans room) ⟨_, rest, rfl⟩ view' further)

theorem Complete.factors_succ (ih : Complete n d) (left : Filter) :
    FindsAll d (Parsing.factors (n + 1) left) (fun ls f =>
      ∃ rest, Trailing .star (Operand (MappingWithin d)) ls rest ∧
        f = rest.foldl (.binary .multiply) left) endsProduct := by
  rintro p _ more _ room ⟨fs, phrases, rfl⟩ view further
  unfold Parsing.factors
  cases phrases with
  | nil =>
    refine finds_look view further rfl fun t q taken ends => ?_
    rw [if_neg (ne_of_ends ends rfl)]
    exact finds_unread taken fun q' view' depth => finds_pure depth (view'.trans view)
  | cons kind first rest =>
    rw [List.cons_append, List.append_assoc] at view
    have between := rest.follows rfl (further.mono endsOperand_of_endsProduct)
    exact ih.operand.behind _ room first view between (fun t same => if_pos (same.trans kind))
      fun q room' view' => ih.factors _ room' ⟨_, rest, rfl⟩ view' further

theorem Complete.operand_succ (ih : Complete n d) :
    FindsAll d (Parsing.operand (n + 1)) (Operand (MappingWithin d)) endsOperand := by
  intro p ls more f room phrase view further
  cases phrase with
  | selectors selectors => exact operand_finds_selectors n selectors view further
  | literal literal => exact operand_finds_literal n literal view
  | mapping mapping =>
    obtain ⟨l, rest, rfl, opened⟩ := mapping.opens
    unfold Parsing.operand
    refine finds_next view fun t q taken same view' => ?_
    subst same
    rw [Token.kind_lexeme, decide_eq_true_eq] at opened
    simp only [opened]
    have room' := taken.depth.room.trans room
    -- There is a mapping, so one more may be opened.
    have below : q.depth < q.maxDepth := by
      cases d with
      | zero => exact mapping.elim
      | succ d =>
        have levels : q.maxDepth - q.depth = d + 1 := room'
        omega
    exact finds_enter below (.since taken.depth (ih.mapping q _ _ _ _ room' mapping view'))

theorem Complete.mapping_succ (ih : ∀ d, Complete n d) (p : Parser) (l : Lexeme)
    (ls more : List Lexeme) (f : Filter) (room : p.room = d) (phrase : MappingWithin d (l :: ls) f)
    (view : p.view = (ls ++ more, none)) :
    Finds p { p with depth := p.depth + 1 } (Parsing.mapping (n + 1)) more f := by
  cases d with
  | zero => exact phrase.elim
  | succ d =>
    have inside : Parser.room { p with depth := p.depth + 1 } = d := by
      have levels : p.maxDepth - p.depth = d + 1 := room
      simp only [Parser.room]
      omega
    have view' : Parser.view { p with depth := p.depth + 1 } = (ls ++ more, none) := view
    unfold Parsing.mapping
    cases phrase with
    | empty left right =>
      refine finds_next view' fun t q taken same view'' => ?_
      subst same
      rw [Token.kind_lexeme] at right
      rw [if_pos right]
      refine finds_leave taken.depth fun q' view₃ depth => ?_
      exact finds_pure depth (view₃.trans view'')
    | entries left entries right =>
      rw [List.append_assoc] at view'
      -- The first token is only looked at; it is the name of an entry.
      obtain ⟨⟨isName, colon, value⟩, rest⟩ := entries
      refine finds_next view' fun t q taken same _ => ?_
      have notClosing : t.kind ≠ .rightBrace := by
        rw [← Token.kind_lexeme, same]
        intro kind
        rw [kind] at isName
        cases isName
      rw [if_neg notClosing]
      refine finds_unread taken fun q' view'' depth => ?_
      have entries : Separated .comma (Entry (Chain d)) _ _ :=
        .intro (.intro isName colon value) rest
      refine ((ih d).entries q' _ more _ _ (depth.room.trans inside) entries right
        (view''.trans view')).bind fun q'' view₃ depth' => ?_
      refine finds_leave (depth.trans depth') fun q₃ view₄ depth'' => ?_
      exact finds_pure depth'' (view₄.trans view₃)

theorem Complete.entries_succ (ih : Complete n d) (p : Parser) (ls more : List Lexeme) (r : Lexeme)
    (es : List (String × Filter)) (room : p.room = d)
    (phrases : Separated .comma (Entry (Chain d)) ls es) (right : r.kind = .rightBrace)
    (view : p.view = (ls ++ r :: more, none)) : Finds p p (Parsing.entries (n + 1)) more es := by
  obtain ⟨⟨isName, colon, value⟩, rest⟩ := phrases
  simp only [List.cons_append, List.append_assoc] at view
  unfold Parsing.entries
  refine finds_next view fun name q taken same view' => ?_
  subst same
  rw [Token.kind_lexeme] at isName
  rw [if_pos isName]
  refine finds_next view' fun sign q' taken' same' view'' => ?_
  subst same'
  rw [Token.kind_lexeme] at colon
  rw [if_pos colon]
  have depth' := taken.depth.trans taken'.depth
  have room' := depth'.room.trans room
  refine .since depth' ?_
  have follows : Follows endsChain (_ ++ r :: more) :=
    rest.follows rfl (by rw [follows_cons, right]; rfl)
  refine (ih.chain room' value view'' follows).bind fun q₃ view₃ depth₃ => .since depth₃ ?_
  cases rest with
  | nil =>
    refine finds_next view₃ fun t q₄ taken₄ same₄ view₄ => ?_
    subst same₄
    rw [Token.kind_lexeme] at right
    simp only [right]
    exact finds_pure taken₄.depth view₄
  | cons comma first rest =>
    simp only [List.cons_append, List.append_assoc] at view₃
    refine finds_next view₃ fun t q₄ taken₄ same₄ view₄ => ?_
    subst same₄
    rw [Token.kind_lexeme] at comma
    simp only [comma]
    have room₄ := taken₄.depth.room.trans (depth₃.room.trans room')
    rw [← List.append_assoc] at view₄
    refine .since taken₄.depth ?_
    refine (ih.entries q₄ _ more r _ room₄ (.intro first rest) right view₄).bind ?_
    exact fun q₅ view₅ depth₅ => finds_pure depth₅ view₅

end Steps

/-- Each production finds the phrases of its line in the grammar. -/
theorem complete_all (n d : Nat) : Complete n d := by
  induction n generalizing d with
  | zero =>
    exact {
      chain := findsAll_cutOff
      stages := findsAll_cutOff
      sum := findsAll_cutOff
      summands := fun _ => findsAll_cutOff
      product := findsAll_cutOff
      factors := fun _ => findsAll_cutOff
      operand := findsAll_cutOff
      mapping := fun _ _ _ _ _ _ _ _ => finds_cutOff
      entries := fun _ _ _ _ _ _ _ _ _ => finds_cutOff }
  | succ n ih =>
    exact {
      chain := (ih d).chain_succ
      stages := (ih d).stages_succ
      sum := (ih d).sum_succ
      summands := (ih d).summands_succ
      product := (ih d).product_succ
      factors := (ih d).factors_succ
      operand := (ih d).operand_succ
      mapping := Complete.mapping_succ ih
      entries := (ih d).entries_succ }

theorem chains_finds (n d : Nat) {fs : List Filter} (room : p.room = d)
    (phrases : Trailing .comma (Chain d) ls fs) (view : p.view = (ls, none)) :
    Meets (chains n) p (fun fs' _ => fs' = fs) fun _ => False := by
  induction n generalizing p ls fs with
  | zero => exact meets_cutOff
  | succ n ih =>
    unfold chains
    cases phrases with
    | nil =>
      refine (next_meets_of_nil view).bind ?_
      rintro t q ⟨-, last⟩
      simp only [last]
      exact meets_pure rfl
    | cons comma first rest =>
      refine (next_meets_of_cons view).bind ?_
      rintro t q ⟨taken, rfl, view'⟩
      rw [Token.kind_lexeme] at comma
      simp only [comma]
      have room' := taken.depth.room.trans room
      -- Without further chains, the text is at its end.
      have follows : Follows endsChain _ := rest.follows rfl follows_nil
      rw [List.append_nil] at follows
      refine Meets.bind ((complete_all n d).chain room' first view' follows) ?_
      rintro f q' ⟨rfl, view'', depth⟩
      refine (ih (depth.room.trans room') rest view'').bind ?_
      rintro fs q'' rfl
      exact meets_pure rfl

/-- A program is found when nothing else is to come. -/
theorem program_finds (n : Nat) {fs : List Filter}
    (phrases : Separated .comma (Chain p.room) ls fs) (view : p.view = (ls, none)) :
    Meets (program n) p (fun fs' _ => fs'.1 :: fs'.2 = fs) fun _ => False := by
  obtain ⟨first, rest⟩ := phrases
  have follows : Follows endsChain _ := rest.follows rfl follows_nil
  rw [List.append_nil] at follows
  unfold program
  refine Meets.bind ((complete_all n p.room).chain rfl first view follows) ?_
  rintro f q ⟨rfl, view', depth⟩
  refine (chains_finds n p.room depth.room rest view').bind ?_
  rintro fs q' rfl
  exact meets_pure rfl

end Parsing

end TreeQuery
