import TreeQuery.Proofs.Grammar.Examination

/-!
# Errors come neither too early nor too late

Each production examines the phrases of its line in the grammar: after a value no other phrase could
have stood there, and an error is about a token with which no phrase can go on, after tokens that
still could. Neither the numbers of the scanner nor anything else is taken for granted here: a
number without a value would be such a token.

The proof goes by induction on the allowance, one production at a time.

## Main definitions

* `Parsing.Examined` — what all productions examine with one allowance

## Main statements

* `Parsing.examined_all` — each production examines the phrases of its line in the grammar
* `Parsing.program_blames` — what an error of a whole program says of the tokens
-/

namespace TreeQuery

namespace Parsing

open Run TreeQuery.Parser Grammar

variable {p q : Parser} {t : Token} {l : Lexeme} {ls : List Lexeme} {ends : TokenKind → Bool}

/-! ### Numbers and brackets -/

theorem numberOf_eq_throw (kind : t.kind = .number) (none : ¬ ∃ x, IsNumber t.lexeme x) :
    numberOf t = throw (.invalidNumber t.text t.position) := by
  unfold numberOf
  split
  · next d value => exact absurd ⟨d.toFloat, kind, by rw [Token.text_lexeme, value]; rfl⟩ none
  · rfl

theorem indexOf_eq_throw (kind : t.kind = .number) (none : ¬ ∃ i, IsIndex t.lexeme i) :
    indexOf t = throw (.invalidIndex t.text t.position) := by
  unfold indexOf
  dsimp only
  split
  · next h =>
    simp only [Bool.and_eq_true, Bool.not_eq_true', List.isEmpty_eq_false_iff, List.all_eq_true,
      decide_eq_true_eq] at h
    obtain ⟨⟨nonempty, digits⟩, bound⟩ := h
    exact absurd ⟨_, kind, nonempty, digits, rfl, bound⟩ none
  · rfl

section Brackets

variable {b : Bracket}

/-- A first number between brackets is where the stretch starts. -/
theorem Bracketed.start (h : Bracketed ls b) {i : Nat} (colon : b.colon = false)
    (free : b.start = none) (index : IsIndex l i) :
    Bracketed (ls ++ [l]) { b with start := some i } := by
  cases h with
  | empty => exact .index index
  | _ => simp_all

/-- A number behind the colon is where the stretch stops. -/
theorem Bracketed.stop (h : Bracketed ls b) {j : Nat} (colon : b.colon = true)
    (free : b.stop = none) (index : IsIndex l j) :
    Bracketed (ls ++ [l]) { b with stop := some j } := by
  cases h with
  | colon sign => exact .upTo sign index
  | since start sign => exact .between start sign index
  | _ => simp_all

theorem Bracketed.sign (h : Bracketed ls b) (colon : b.colon = false) (kind : l.kind = .colon) :
    Bracketed (ls ++ [l]) { b with colon := true } := by
  cases h with
  | empty => exact .colon kind
  | index start => exact .since start kind
  | _ => simp_all

theorem Bracketed.exists_rest (before : Bracketed ls b) : ∃ ls', ls' ∈ bracketRest ls :=
  ⟨[⟨.rightBracket, "]"⟩], singleton_mem_bracketRest before rfl⟩

/-- A token is rejected with which no range goes on. -/
theorem Bracketed.rejects (before : Bracketed ls b) (inside : t.kind ≠ .rightBracket)
    (apart : ∀ inner step, ¬ Range (ls ++ t.lexeme :: inner) step) :
    Rejects (bracketRest ls) ends t := by
  refine rejects_of_notMem nil_notMem_bracketRest fun ls' mem => ?_
  rcases (cons_mem_bracketRest before).mp mem with ⟨kind, -⟩ | ⟨-, inner, r, step, -, -, range⟩
  · exact inside kind
  · rw [List.append_assoc] at range
    exact apart inner step range

/-- After a number or a colon the range goes on. -/
theorem Bracketed.onward {r : Parsing Selector} (before : Bracketed ls b) (yields : p.Yields t q)
    (kind : t.kind = .number ∨ t.kind = .colon)
    (h : Examines q q r (bracketRest (ls ++ [t.lexeme])) ends) :
    Examines p q r (bracketRest ls) ends := by
  have inside : t.lexeme.kind ≠ .rightBracket := by
    rcases kind with kind | kind <;> rw [Token.kind_lexeme, kind] <;> decide
  refine .afterFirst nil_notMem_bracketRest yields ?_ (fun ls' => ?_) h
  · rcases kind with kind | kind <;> rw [kind] <;> decide
  · simp only [cons_mem_bracketRest before, inside, false_and, false_or, ne_eq, not_false_eq_true,
      true_and]

/-- A number is a position, or it is refused. -/
theorem Bracketed.position {f : Nat → Parsing Selector} (before : Bracketed ls b)
    (yields : p.Yields t q) (kind : t.kind = .number)
    (h : ∀ i, IsIndex t.lexeme i → Examines q q (f i) (bracketRest (ls ++ [t.lexeme])) ends) :
    Examines p q (indexOf t >>= f) (bracketRest ls) ends := by
  by_cases isIndex : ∃ i, IsIndex t.lexeme i
  · obtain ⟨i, index⟩ := isIndex
    rw [indexOf_eq index, pure_bind]
    exact before.onward yields (.inl kind) (h i index)
  · have inner : t.kind ≠ .finish := by rw [kind]; decide
    rw [indexOf_eq_throw kind isIndex]
    refine examines_throw yields (yields.raises inner trivial rfl) before.exists_rest ?_
    refine before.rejects (by rw [kind]; decide) fun inner step range => ?_
    rcases before.further range with ⟨i, index, -⟩ | ⟨j, index, -⟩ | ⟨sign, -⟩
    · exact isIndex ⟨i, index⟩
    · exact isIndex ⟨j, index⟩
    · rw [Token.kind_lexeme, kind] at sign
      cases sign

/-- What was read inside the brackets is all that the production remembers: each token that it
takes is one with which a range can go on, and each that it refuses is none. -/
theorem bracket_examines (n : Nat) (before : Bracketed ls b) (p : Parser) :
    Examines p p (bracket n b) (bracketRest ls) ends := by
  induction n generalizing ls b p with
  | zero => exact examines_cutOff
  | succ n ih =>
    unfold bracket
    refine examines_next before.exists_rest fun t q yields => ?_
    split
    · next kind colon start =>
      exact before.position yields kind fun i index => ih (before.start colon start index) q
    · next kind colon stop =>
      exact before.position yields kind fun j index => ih (before.stop colon stop index) q
    · next kind colon =>
      exact before.onward yields (.inr kind) (ih (before.sign colon kind) q)
    · next kind =>
      refine examines_only nil_notMem_bracketRest yields (by rw [kind]; decide) fun ls' => ?_
      rw [cons_mem_bracketRest before, Token.kind_lexeme, kind]
      simp
    · next noRight noSign noStart noStop =>
      refine examines_refuse yields before.exists_rest
        (before.rejects noRight fun inner step range => ?_)
      -- If the brackets could go on, there would be a case for it.
      rcases before.further range with ⟨i, index, colon, start, -⟩ | ⟨j, index, colon, stop, -⟩ |
        ⟨sign, colon, -⟩
      · exact noStart index.kind colon start
      · exact noStop index.kind colon stop
      · exact noSign sign colon

end Brackets

/-! ### Selectors -/

theorem not_finish_of_isName (isName : t.kind.isName) : t.kind ≠ .finish := by
  intro last
  rw [last] at isName
  cases isName

/-- Anything may follow a phrase that ends with a bracket of its own. -/
theorem between_any {M : Language Lexeme} {outer : TokenKind → Bool} :
    Between M (fun _ => true) outer :=
  fun _ _ _ _ _ _ => rfl

theorem steps_examines (n : Nat) (p : Parser) :
    Examines p p (steps n) (phrases Segments) endsOperand := by
  induction n generalizing p with
  | zero => exact examines_cutOff
  | succ n ih =>
    unfold steps
    refine examines_next ⟨[], nil_mem_segments⟩ fun t q yields => ?_
    split
    · next kind =>
      refine .after yields (M := afterDot) (by rw [kind]; decide) (fun ls => ?_)
        (fun _ => by rw [kind]; rfl) ?_
      · rw [cons_mem_segments, Token.kind_lexeme, kind]
        simp
      refine examines_next ⟨[], .inl nil_mem_segments⟩ fun name q' yields' => ?_
      split
      · next isName =>
        refine .after yields' (not_finish_of_isName isName)
          (fun ls => cons_mem_afterDot (by exact isName)) (fun _ => ?_) ((ih q').map _)
        revert isName
        cases name.kind <;> decide
      · -- A token that is no name is handed back: it opens another step, or the steps end in front
        -- of it.
        next noName =>
        refine examines_unread yields' fun q'' consumed => ?_
        refine .narrow (M := phrases Segments) (fun ls mem _ => .inl mem) ?_
          (fun mem => .inl (.inl mem)) ⟨[], .inl nil_mem_segments⟩ (ih q'')
        rintro ls (segments | ⟨l, rest, rfl, isName, -⟩) more heads
        · exact segments
        · have outlook : q.outlook = q''.outlook := consumed.outlook
          rw [← outlook] at heads
          obtain rfl := yields'.heads_cons heads
          exact absurd isName noName
    · next kind =>
      refine .after yields (M := bracketRest [] * phrases Segments) (by rw [kind]; decide)
        (fun ls => ?_) (fun _ => by rw [kind]; rfl) ?_
      · rw [cons_mem_segments, Token.kind_lexeme, kind]
        simp
      exact (bracket_examines n .empty q).bind between_any ⟨[], nil_mem_segments⟩
        fun selector q' _ => (ih q').map _
    · next noDot noBracket =>
      refine examines_unread_pure yields nil_mem_segments fun ls mem => ?_
      rcases cons_mem_segments.mp mem with ⟨kind, -⟩ | ⟨kind, -⟩
      · exact noDot kind
      · exact noBracket kind

/-! ### Filters -/

section Separators

variable {α β : Type} {separator : TokenKind} {Phrase : List Lexeme → α → Prop}
  {outer : TokenKind → Bool}

/-- After a separator there is a phrase, and perhaps another separator. -/
theorem examines_separator {r : Parsing β} (yields : p.Yields t q) (kind : t.kind = separator)
    (inner : separator ≠ .finish) (stops : outer separator = false)
    (h : Examines q q r (phrases Phrase * phrases (Trailing separator Phrase)) outer) :
    Examines p q r (phrases (Trailing separator Phrase)) outer := by
  refine .after yields (kind ▸ inner) (fun ls => ?_) (fun _ => kind ▸ stops) h
  rw [cons_mem_trailing, Token.kind_lexeme]
  exact and_iff_right kind

/-- Phrases of the same kind come after one that a separator may follow. -/
theorem Examines.bind_trailing {γ : Type} {L : Language Lexeme} {inner : TokenKind → Bool}
    {r : Parsing γ} {f : γ → Parsing β} (h : Examines p q r L inner) (separates : inner separator)
    (narrower : ∀ kind, outer kind → inner kind)
    (hf : ∀ a q', q'.room = p.room →
      Examines q' q' (f a) (phrases (Trailing separator Phrase)) outer) :
    Examines p q (r >>= f) (L * phrases (Trailing separator Phrase)) outer :=
  h.bind (fun _ mem _ => follows_of_mem_trailing separates narrower mem) ⟨[], nil_mem_trailing⟩ hf

theorem notMem_trailing (other : t.kind ≠ separator) (ls : List Lexeme) :
    t.lexeme :: ls ∉ phrases (Trailing separator Phrase) :=
  fun mem => other (cons_mem_trailing.mp mem).1

end Separators

/-- What the productions examine with an allowance of `n`, where `d` more mappings may be opened. -/
structure Examined (n d : Nat) : Prop where
  chain : ∀ p, p.room = d → Examines p p (chain n) (phrases (Chain d)) endsChain
  stages : ∀ p, p.room = d →
    Examines p p (stages n) (phrases (Trailing .pipe (Sum (MappingWithin d)))) endsChain
  sum : ∀ p, p.room = d → Examines p p (sum n) (phrases (Sum (MappingWithin d))) endsSum
  summands : ∀ p left, p.room = d →
    Examines p p (summands n left) (phrases (Trailing .plus (Product (MappingWithin d)))) endsSum
  product : ∀ p, p.room = d →
    Examines p p (product n) (phrases (Product (MappingWithin d))) endsProduct
  factors : ∀ p left, p.room = d →
    Examines p p (factors n left) (phrases (Trailing .star (Operand (MappingWithin d)))) endsProduct
  operand : ∀ p, p.room = d →
    Examines p p (operand n) (phrases (Operand (MappingWithin d))) endsOperand
  mapping : ∀ p, p.room = d + 1 → Examines p { p with depth := p.depth + 1 } (mapping n)
    (mappingRest (Chain d)) fun _ => true
  entries : ∀ p, p.room = d → Examines p p (entries n) (entryList (Chain d)) fun _ => true

section Steps

variable {n d : Nat}

theorem Examined.chain_succ (ih : Examined n d) (p : Parser) (room : p.room = d) :
    Examines p p (Parsing.chain (n + 1)) (phrases (Chain d)) endsChain := by
  unfold Parsing.chain
  rw [Chain, phrases_chainOver]
  exact (ih.sum p room).bind_trailing rfl endsSum_of_endsChain fun first q room' =>
    (ih.stages q (room'.trans room)).map _

theorem Examined.sum_succ (ih : Examined n d) (p : Parser) (room : p.room = d) :
    Examines p p (Parsing.sum (n + 1)) (phrases (Sum (MappingWithin d))) endsSum := by
  unfold Parsing.sum
  rw [phrases_sum]
  exact (ih.product p room).bind_trailing rfl endsProduct_of_endsSum fun left q room' =>
    ih.summands q left (room'.trans room)

theorem Examined.product_succ (ih : Examined n d) (p : Parser) (room : p.room = d) :
    Examines p p (Parsing.product (n + 1)) (phrases (Product (MappingWithin d))) endsProduct := by
  unfold Parsing.product
  rw [phrases_product]
  exact (ih.operand p room).bind_trailing rfl endsOperand_of_endsProduct fun left q room' =>
    ih.factors q left (room'.trans room)

theorem Examined.stages_succ (ih : Examined n d) (p : Parser) (room : p.room = d) :
    Examines p p (Parsing.stages (n + 1)) (phrases (Trailing .pipe (Sum (MappingWithin d))))
      endsChain := by
  unfold Parsing.stages
  refine examines_next ⟨[], nil_mem_trailing⟩ fun t q yields => ?_
  split
  · next kind =>
    have room' : q.room = d := yields.depth.room.trans room
    refine examines_separator yields kind (by decide) rfl ?_
    exact (ih.sum q room').bind_trailing rfl endsSum_of_endsChain fun stage q' room'' =>
      (ih.stages q' (room''.trans room')).map _
  · next other => exact examines_unread_pure yields nil_mem_trailing (notMem_trailing other)

theorem Examined.factors_succ (ih : Examined n d) (p : Parser) (left : Filter) (room : p.room = d) :
    Examines p p (Parsing.factors (n + 1) left)
      (phrases (Trailing .star (Operand (MappingWithin d)))) endsProduct := by
  unfold Parsing.factors
  refine examines_next ⟨[], nil_mem_trailing⟩ fun t q yields => ?_
  split
  · next kind =>
    have room' : q.room = d := yields.depth.room.trans room
    refine examines_separator yields kind (by decide) rfl ?_
    exact (ih.operand q room').bind_trailing rfl endsOperand_of_endsProduct fun right q' room'' =>
      ih.factors q' _ (room''.trans room')
  · next other => exact examines_unread_pure yields nil_mem_trailing (notMem_trailing other)

theorem Examined.summands_succ (ih : Examined n d) (p : Parser) (left : Filter)
    (room : p.room = d) :
    Examines p p (Parsing.summands (n + 1) left)
      (phrases (Trailing .plus (Product (MappingWithin d)))) endsSum := by
  unfold Parsing.summands
  refine examines_next ⟨[], nil_mem_trailing⟩ fun t q yields => ?_
  -- An operator without a meaning is refused: it does not follow a sum either.
  have unsupported (inner : t.kind ≠ .finish) (other : t.kind ≠ .plus)
      (stops : endsSum t.kind = false) : Examines p q
        (throw (.unsupportedOperator t.text t.position) : Parsing Filter)
        (phrases (Trailing .plus (Product (MappingWithin d)))) endsSum :=
    examines_throw yields (yields.raises inner trivial rfl) ⟨[], nil_mem_trailing⟩
      ⟨notMem_trailing other, fun _ => ⟨inner, stops⟩⟩
  split
  · next kind =>
    have room' : q.room = d := yields.depth.room.trans room
    refine examines_separator yields kind (by decide) rfl ?_
    exact (ih.product q room').bind_trailing rfl endsProduct_of_endsSum fun right q' room'' =>
      ih.summands q' _ (room''.trans room')
  · next kind => exact unsupported (by rw [kind]; decide) (by rw [kind]; decide) (by rw [kind]; rfl)
  · next kind => exact unsupported (by rw [kind]; decide) (by rw [kind]; decide) (by rw [kind]; rfl)
  · next other _ _ => exact examines_unread_pure yields nil_mem_trailing (notMem_trailing other)

/-- A number token ends a phrase if it has a value, and is refused if it has none. -/
theorem examines_numberOf {L : Language Lexeme} (f : Float → Filter) (yields : p.Yields t q)
    (kind : t.kind = .number) (nonempty : ∃ ls, ls ∈ L) (nonnil : [] ∉ L)
    (same : ∀ ls, t.lexeme :: ls ∈ L ↔ ls = [] ∧ ∃ x, IsNumber t.lexeme x) :
    Examines p q (numberOf t >>= fun x => pure (f x)) L ends := by
  have inner : t.kind ≠ .finish := by rw [kind]; decide
  by_cases isNumber : ∃ x, IsNumber t.lexeme x
  · obtain ⟨x, number⟩ := isNumber
    rw [numberOf_eq number, pure_bind]
    exact examines_only nonnil yields inner fun ls =>
      (same ls).trans (and_iff_left ⟨x, number⟩)
  · rw [numberOf_eq_throw kind isNumber]
    exact examines_throw yields (yields.raises inner trivial rfl) nonempty
      (rejects_of_notMem nonnil fun ls mem => isNumber ((same ls).mp mem).2)

/-- After a sign there is a number. -/
theorem examines_signed (p : Parser) :
    Examines p p (next >>= fun t => if t.kind = .number then
      numberOf t >>= fun x => pure (Filter.number (-x)) else refuse t .signedNumber)
      signedNumber ends := by
  refine examines_next exists_mem_signedNumber fun t q yields => ?_
  split
  · next kind =>
    exact examines_numberOf _ yields kind exists_mem_signedNumber nil_notMem_signedNumber
      fun ls => cons_mem_signedNumber
  · next other =>
    refine examines_refuse yields exists_mem_signedNumber
      (rejects_of_notMem nil_notMem_signedNumber fun ls mem => other ?_)
    obtain ⟨x, number⟩ := (cons_mem_signedNumber.mp mem).2
    exact number.kind

/-- Selectors begin with the token that was only looked at. -/
theorem selectors_examines (n : Nat) (yields : p.Yields t q)
    (kind : t.kind = .dot ∨ t.kind = .leftBracket) :
    Examines p q (unread t >>= fun _ => steps n >>= fun s => pure (Filter.ofSteps s))
      (phrases (Operand (MappingWithin d))) endsOperand := by
  have inner : t.kind ≠ .finish := by
    rcases kind with kind | kind <;> rw [kind] <;> decide
  refine examines_unread yields fun q' consumed => .map ?_ _
  have outlook : p.outlook = q'.outlook := consumed.outlook
  -- With this token in front, an operand can only be selectors.
  refine .narrow (M := phrases Segments) (fun ls mem nonempty => ?_) (fun ls mem more heads => ?_)
    (fun _ => .inr ?_) (exists_mem_operand d) (steps_examines n q')
  · exact mem_operand_of_mem_segments mem nonempty
  · rw [← outlook] at heads
    cases ls with
    | nil => exact absurd mem nil_notMem_operand
    | cons l ls =>
      obtain rfl := yields.heads_cons heads
      rw [cons_mem_operand, Token.kind_lexeme] at mem
      rcases kind with kind | kind <;> rw [kind] at mem <;> exact mem
  · rw [← outlook]
    rcases kind with kind | kind
    · refine ⟨[t.lexeme], ?_, List.cons_ne_nil _ _, yields.heads_lexeme inner _⟩
      exact cons_mem_segments.mpr (.inl ⟨kind, .inl nil_mem_segments⟩)
    · refine ⟨[t.lexeme, ⟨.rightBracket, "]"⟩], ?_, List.cons_ne_nil _ _,
        yields.heads_lexeme inner _⟩
      exact ⟨_, Segments.bracket kind Range.empty rfl .nil⟩

/-- A brace opens a mapping, unless as many are open as may be: then no operand begins with it. -/
theorem Examined.opened (ih : ∀ d, Examined n d) (yields : p.Yields t q) (room : p.room = d)
    (kind : t.kind = .leftBrace) :
    Examines p q (enter t.position >>= fun _ => Parsing.mapping n)
      (phrases (Operand (MappingWithin d))) endsOperand := by
  have inner : t.kind ≠ .finish := by rw [kind]; decide
  have first (ls : List Lexeme) := @cons_mem_operand t.lexeme ls d
  simp only [Token.kind_lexeme, kind] at first
  refine examines_enter yields inner (exists_mem_operand d) (fun full => ?_) fun below => ?_
  · obtain rfl : 0 = d := full.symm.trans room
    refine rejects_of_notMem nil_notMem_operand fun ls mem => ?_
    obtain ⟨f, mapping⟩ := (first ls).mp mem
    exact mapping.elim
  · have room' : q.room = d := yields.depth.room.trans room
    obtain ⟨d, rfl⟩ : ∃ d', d = d' + 1 := by
      have levels : q.maxDepth - q.depth = d := room'
      exact ⟨d - 1, by omega⟩
    exact .afterFirst nil_notMem_operand yields inner
      (fun ls => (first ls).trans (cons_mem_mappingWithin kind))
      (((ih d).mapping q room').mono fun _ _ => rfl)

theorem Examined.operand_succ (ih : ∀ d, Examined n d) (p : Parser) (room : p.room = d) :
    Examines p p (Parsing.operand (n + 1)) (phrases (Operand (MappingWithin d))) endsOperand := by
  unfold Parsing.operand
  refine examines_next (exists_mem_operand d) fun t q yields => ?_
  -- The first token decides which form of operand it is, in the grammar as in the production.
  have first (ls : List Lexeme) := @cons_mem_operand t.lexeme ls d
  simp only [Token.kind_lexeme] at first
  split
  · next kind => exact selectors_examines n yields (.inl kind)
  · next kind => exact selectors_examines n yields (.inr kind)
  · next kind =>
    simp only [kind] at first
    exact examines_numberOf _ yields kind (exists_mem_operand d) nil_notMem_operand first
  · next kind =>
    simp only [kind] at first
    exact .afterFirst nil_notMem_operand yields (by rw [kind]; decide) first (examines_signed q)
  · next kind =>
    simp only [kind] at first
    exact examines_only nil_notMem_operand yields (by rw [kind]; decide) first
  · next kind =>
    simp only [kind] at first
    exact examines_only nil_notMem_operand yields (by rw [kind]; decide) first
  · next kind => exact Examined.opened ih yields room kind
  · refine examines_refuse yields (exists_mem_operand d)
      (rejects_of_notMem nil_notMem_operand fun ls mem => ?_)
    have begins := (first ls).mp mem
    split at begins <;> contradiction

theorem mapping_eq (n : Nat) : Parsing.mapping (n + 1) = do
    let entries ← (do
      let first ← next
      if first.kind = .rightBrace then pure [] else do
        unread first
        Parsing.entries n)
    leave
    return .mapping entries := by
  rw [Parsing.mapping, bind_assoc]
  congr
  funext first
  split
  · rw [pure_bind]
  · rw [bind_assoc]

theorem Examined.mapping_succ (ih : Examined n d) (p : Parser) (room : p.room = d + 1) :
    Examines p { p with depth := p.depth + 1 } (Parsing.mapping (n + 1))
      (mappingRest (Chain d)) fun _ => true := by
  have room' : Parser.room { p with depth := p.depth + 1 } = d := by
    have levels : p.maxDepth - p.depth = d + 1 := room
    simp only [Parser.room]
    omega
  rw [mapping_eq]
  refine Examines.leave (examines_next exists_mem_mappingRest fun t q yields => ?_)
  split
  · next kind =>
    exact examines_only nil_notMem_mappingRest yields (by rw [kind]; decide)
      fun ls => cons_mem_mappingRest kind
  · -- Anything but a brace is handed back and has to begin an entry.
    next other =>
    refine examines_unread yields fun q' consumed => ?_
    have outlook : Parser.outlook { p with depth := p.depth + 1 } = q'.outlook := consumed.outlook
    refine .narrow (M := entryList (Chain d)) (fun ls mem _ => .inr mem) ?_
      (fun mem => .inl (.inr mem)) exists_mem_mappingRest
      (ih.entries q' (consumed.room.trans room'))
    rintro ls (⟨r, right, rfl⟩ | mem) more heads
    · rw [← outlook] at heads
      obtain rfl := yields.heads_cons heads
      exact absurd right other
    · exact mem

theorem Examined.entries_succ (ih : Examined n d) (p : Parser) (room : p.room = d) :
    Examines p p (Parsing.entries (n + 1)) (entryList (Chain d)) fun _ => true := by
  unfold Parsing.entries
  -- Name, colon, value and what separates the entries: each token is one that can stand there, or
  -- what lies ahead is refused.
  refine examines_next (exists_mem_entryList d) fun name q yields => ?_
  split
  case isFalse noName =>
    exact examines_refuse yields (exists_mem_entryList d)
      (rejects_of_notMem nil_notMem_entryList fun ls mem => noName (cons_mem_entryList.mp mem).1)
  case isTrue isName =>
  refine .afterFirst nil_notMem_entryList yields (not_finish_of_isName isName)
    (fun ls => cons_mem_entryList.trans (and_iff_right isName)) ?_
  refine examines_next (exists_mem_afterName d) fun colon q' yields' => ?_
  split
  case isFalse noColon =>
    exact examines_refuse yields' (exists_mem_afterName d)
      (rejects_of_notMem nil_notMem_afterName fun ls mem => noColon (cons_mem_afterName.mp mem).1)
  case isTrue isColon =>
  refine .afterFirst nil_notMem_afterName yields' (by rw [isColon]; decide)
    (fun ls => cons_mem_afterName.trans (and_iff_right isColon)) ?_
  have room' : q'.room = d := yields'.depth.room.trans (yields.depth.room.trans room)
  refine (ih.chain q' room').bind ?_ exists_mem_entryTail fun value q'' room'' => ?_
  · exact fun ls mem more _ => follows_of_mem_entryTail mem
  refine examines_next exists_mem_entryTail fun t q₃ yields'' => ?_
  have first (ls : List Lexeme) : t.lexeme :: ls ∈ entryTail (Chain d) ↔
      t.kind = .comma ∧ ls ∈ entryList (Chain d) ∨ t.kind = .rightBrace ∧ ls = [] :=
    cons_mem_entryTail
  split
  · next between =>
    refine .afterFirst nil_notMem_entryTail yields'' (M := entryList (Chain d))
      (by rw [between]; decide) (fun ls => ?_) (.map (ih.entries q₃ ?_) _)
    · simp [first, between]
    · exact yields''.depth.room.trans (room''.trans room')
  · next right =>
    refine examines_only nil_notMem_entryTail yields'' (by rw [right]; decide) fun ls => ?_
    simp [first, right]
  · next noComma noBrace =>
    refine examines_refuse yields'' exists_mem_entryTail
      (rejects_of_notMem nil_notMem_entryTail fun ls mem => ?_)
    rcases (first ls).mp mem with ⟨kind, -⟩ | ⟨kind, -⟩
    · exact noComma kind
    · exact noBrace kind

end Steps

/-- Each production examines the phrases of its line in the grammar. -/
theorem examined_all (n d : Nat) : Examined n d := by
  induction n generalizing d with
  | zero => constructor <;> intros <;> exact examines_cutOff
  | succ n ih =>
    exact {
      chain := (ih d).chain_succ
      stages := (ih d).stages_succ
      sum := (ih d).sum_succ
      summands := (ih d).summands_succ
      product := (ih d).product_succ
      factors := (ih d).factors_succ
      operand := Examined.operand_succ ih
      mapping := (ih d).mapping_succ
      entries := (ih d).entries_succ }

/-! ### Whole programs -/

/-- Nothing follows a whole program. -/
def endsProgram (_ : TokenKind) : Bool := false

/-- Further chains come after a comma, and a chain may end there. -/
theorem between_chains (d : Nat) :
    Between (phrases (Trailing .comma (Chain d))) endsChain endsProgram :=
  fun _ mem _ => follows_of_mem_trailing rfl (by rintro _ ⟨⟩) mem

/-- An error after the first chain comes after tokens that can be continued, and these cannot go on
as they do. -/
theorem chains_blames (n d : Nat) (p : Parser) (room : p.room = d) :
    Meets (chains n) p (fun _ _ => True)
      (p.Blames (phrases (Trailing .comma (Chain d))) endsProgram) := by
  induction n generalizing p with
  | zero => exact meets_cutOff
  | succ n ih =>
    unfold chains
    refine ((next_yields p).imp (fun _ _ yields => yields) ?_).bind fun t q yields => ?_
    · rintro e ⟨fault, rfl, outlook⟩
      exact blames_of_fault outlook ⟨[], nil_mem_trailing⟩
    split
    · next kind =>
      have room' : q.room = d := yields.depth.room.trans room
      -- What follows the comma is a chain, with no more mappings open than before.
      have rest := ((examined_all n d).chain q room').bind_blames
        (between_chains d) ⟨[], nil_mem_trailing⟩ fun f q' room'' =>
          (ih q' (room''.trans room')).bind fun fs _ _ => meets_pure (a := f :: fs) trivial
      refine rest.imp (fun _ _ h => h) fun e blamed => ?_
      refine blamed.after yields (by rw [kind]; decide) (fun ls => ?_) fun _ => rfl
      rw [cons_mem_trailing]
      exact and_iff_right kind
    · exact meets_pure trivial
    · next noComma noFinish =>
      exact meets_throw (yields.blames (yields.raises_ofToken _) ⟨[], nil_mem_trailing⟩
        ⟨notMem_trailing noComma, fun _ => ⟨noFinish, rfl⟩⟩)

/-- An error of a whole program comes after tokens that can be continued to one, and these cannot go
on as they do. -/
theorem program_blames (n : Nat) (p : Parser) :
    Meets (program n) p (fun _ _ => True) (p.Blames (phrases (Program p.room)) endsProgram) := by
  unfold program
  rw [phrases_program]
  refine ((examined_all n p.room).chain p rfl).bind_blames (between_chains _)
    ⟨[], nil_mem_trailing⟩ fun first q room => ?_
  exact (chains_blames n p.room q room).bind fun _ _ _ => meets_pure trivial

end Parsing

end TreeQuery
