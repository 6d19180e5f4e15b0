import TreeQuery.Proofs.Grammar.Basic

/-!
# The grammar is unambiguous

Lexemes stand for one filter at most. Phrases follow each other without marks of their own, so more
has to be shown: where a phrase ends is determined too, as long as what follows it is none of the
lexemes that could continue it.

## Main definitions

* `Grammar.endsOperand`, `Grammar.endsProduct`, `Grammar.endsSum`, `Grammar.endsChain` — what may
  follow a phrase
* `Grammar.Determined` — neither the end nor the meaning of a phrase is open to choice

## Main statements

* `Grammar.determined_chain` — chains are determined
* `Grammar.eq_of_program` — lexemes stand for one program at most
-/

namespace TreeQuery

namespace Grammar

variable {α : Type}

/-! ### What may follow -/

/-- Whether an operand may end before a lexeme of this kind. -/
def endsOperand : TokenKind → Bool
  | .text => false
  | .quoted => false
  | .number => false
  | .dot => false
  | .leftBracket => false
  | _ => true

/-- Whether a product may end before a lexeme of this kind. -/
def endsProduct (kind : TokenKind) : Bool :=
  endsOperand kind && kind ≠ .star

/-- Whether a sum may end before a lexeme of this kind. The operators without a meaning count as
continuing it. -/
def endsSum (kind : TokenKind) : Bool :=
  endsProduct kind && kind ≠ .plus && kind ≠ .minus && kind ≠ .slash

/-- Whether a chain may end before a lexeme of this kind. -/
def endsChain (kind : TokenKind) : Bool :=
  endsSum kind && kind ≠ .pipe

/-- Whether several chains with commas between them may end before a lexeme of this kind. -/
def endsChains (kind : TokenKind) : Bool :=
  endsChain kind && kind ≠ .comma

theorem endsOperand_of_endsProduct (kind : TokenKind) : endsProduct kind → endsOperand kind := by
  cases kind <;> decide

theorem endsProduct_of_endsSum (kind : TokenKind) : endsSum kind → endsProduct kind := by
  cases kind <;> decide

theorem endsSum_of_endsChain (kind : TokenKind) : endsChain kind → endsSum kind := by
  cases kind <;> decide

theorem endsChain_of_endsChains (kind : TokenKind) : endsChains kind → endsChain kind := by
  cases kind <;> decide

theorem ne_of_ends {ends : TokenKind → Bool} {kind kind' : TokenKind} (h : ends kind)
    (h' : ends kind' = false) : kind ≠ kind' := by
  rintro rfl
  rw [h'] at h
  cases h

/-- The lexemes, if there are any, begin with one before which a phrase may end. -/
def Follows (ends : TokenKind → Bool) (more : List Lexeme) : Prop :=
  ∀ l ∈ more.head?, ends l.kind

theorem follows_nil {ends : TokenKind → Bool} : Follows ends [] := by
  intro l mem
  cases mem

theorem follows_cons {ends : TokenKind → Bool} {l : Lexeme} {ls : List Lexeme} :
    Follows ends (l :: ls) ↔ ends l.kind := by
  simp [Follows]

theorem Follows.mono {ends ends' : TokenKind → Bool} {more : List Lexeme} (h : Follows ends more)
    (weaker : ∀ kind, ends kind → ends' kind) : Follows ends' more :=
  fun l mem => weaker l.kind (h l mem)

/-- Of several phrases in front of the same lexemes, all have the same end and the same meaning. -/
def Determined (Phrase : List Lexeme → α → Prop) (ends : TokenKind → Bool) : Prop :=
  ∀ ⦃ls ls' : List Lexeme⦄ ⦃a a' : α⦄ ⦃more more' : List Lexeme⦄, Phrase ls a → Phrase ls' a' →
    ls ++ more = ls' ++ more' → Follows ends more → Follows ends more' → ls = ls' ∧ a = a'

/-! ### Phrases with separators -/

section Separators

variable {separator : TokenKind} {Phrase : List Lexeme → α → Prop} {inner outer : TokenKind → Bool}

theorem Trailing.follows {ls more : List Lexeme} {as : List α} (h : Trailing separator Phrase ls as)
    (between : inner separator) (further : Follows inner more) : Follows inner (ls ++ more) := by
  cases h with
  | nil => exact further
  | cons kind _ _ =>
    rw [List.cons_append, follows_cons, kind]
    exact between

theorem determined_trailing (phrase : Determined Phrase inner) (between : inner separator)
    (narrower : ∀ kind, outer kind → inner kind) (stops : outer separator = false) :
    Determined (Trailing separator Phrase) outer := by
  intro ls ls' as as' more more' h h' same further further'
  -- No separator may follow: otherwise the phrases would not have ended.
  have refuted {l : Lexeme} {rest : List Lexeme} (kind : l.kind = separator)
      (next : Follows outer (l :: rest)) : False := by
    rw [follows_cons, kind, stops] at next
    cases next
  induction h generalizing ls' as' with
  | nil =>
    cases h' with
    | nil => exact ⟨rfl, rfl⟩
    | cons kind _ _ =>
      rw [List.nil_append] at same
      rw [same] at further
      exact (refuted kind further).elim
  | cons kind first rest ih =>
    cases h' with
    | nil =>
      rw [List.nil_append] at same
      rw [← same] at further'
      exact (refuted kind further').elim
    | cons kind' first' rest' =>
      simp only [List.cons_append, List.append_assoc, List.cons.injEq] at same
      obtain ⟨rfl, same⟩ := same
      obtain ⟨rfl, rfl⟩ := phrase first first' same
        (rest.follows between (further.mono narrower))
        (rest'.follows between (further'.mono narrower))
      obtain ⟨rfl, rfl⟩ := ih rest' (List.append_cancel_left same)
      exact ⟨rfl, rfl⟩

theorem determined_separated (phrase : Determined Phrase inner) (between : inner separator)
    (narrower : ∀ kind, outer kind → inner kind) (stops : outer separator = false) :
    Determined (Separated separator Phrase) outer := by
  rintro _ _ _ _ more more' ⟨first, rest⟩ ⟨first', rest'⟩ same further further'
  simp only [List.append_assoc] at same
  obtain ⟨rfl, rfl⟩ := phrase first first' same
    (rest.follows between (further.mono narrower)) (rest'.follows between (further'.mono narrower))
  obtain ⟨rfl, rfl⟩ := determined_trailing phrase between narrower stops rest rest'
    (List.append_cancel_left same) further further'
  exact ⟨rfl, rfl⟩

end Separators

theorem Collapsed.unique {form : List Filter → Filter} {fs : List Filter} {f g : Filter}
    (h : Collapsed form fs f) (h' : Collapsed form fs g) : f = g := by
  cases h <;> cases h' <;> rfl

theorem LeftNested.unique {op : Operator} {fs : List Filter} {f g : Filter}
    (h : LeftNested op fs f) (h' : LeftNested op fs g) : f = g := by
  cases h
  cases h'
  rfl

theorem determined_joined {separator : TokenKind} {Join : List Filter → Filter → Prop}
    {Phrase : List Lexeme → Filter → Prop} {ends : TokenKind → Bool}
    (separated : Determined (Separated separator Phrase) ends)
    (unique : ∀ {fs f g}, Join fs f → Join fs g → f = g) :
    Determined (Joined separator Join Phrase) ends := by
  rintro ls ls' f f' more more' ⟨fs, phrases, join⟩ ⟨fs', phrases', join'⟩ same further further'
  obtain ⟨rfl, rfl⟩ := separated phrases phrases' same further further'
  exact ⟨rfl, unique join join'⟩

/-! ### Numbers and brackets -/

theorem IsNumber.unique {l : Lexeme} {x y : Float} (h : IsNumber l x) (h' : IsNumber l y) :
    x = y :=
  Option.some.inj (h.value.symm.trans h'.value)

theorem IsIndex.unique {l : Lexeme} {i j : Nat} (h : IsIndex l i) (h' : IsIndex l j) : i = j :=
  h.value.symm.trans h'.value

theorem IsIndex.not_colon {l : Lexeme} {i : Nat} (h : IsIndex l i) : l.kind ≠ .colon := by
  rw [h.kind]
  decide

/-- What stands between brackets is a number or a colon. -/
theorem Range.kind {ls : List Lexeme} {step : Selector} (h : Range ls step) :
    ∀ l ∈ ls, l.kind = .number ∨ l.kind = .colon := by
  intro l mem
  cases h <;> simp only [List.mem_cons, List.not_mem_nil, or_false] at mem
  case index index => exact .inl (mem ▸ index.kind)
  case colon colon => exact .inr (mem ▸ colon)
  case since start colon =>
    rcases mem with rfl | rfl
    · exact .inl start.kind
    · exact .inr colon
  case upTo colon stop =>
    rcases mem with rfl | rfl
    · exact .inr colon
    · exact .inl stop.kind
  case between start colon stop =>
    rcases mem with rfl | rfl | rfl
    · exact .inl start.kind
    · exact .inr colon
    · exact .inl stop.kind

theorem Range.unique {ls : List Lexeme} {s t : Selector} (h : Range ls s) (h' : Range ls t) :
    s = t := by
  cases h with
  | empty => cases h'; rfl
  | index index =>
    cases h' with
    | index index' => rw [index.unique index']
    | colon colon => exact absurd colon index.not_colon
  | colon colon =>
    cases h' with
    | index index => exact absurd colon index.not_colon
    | colon _ => rfl
  | since start colon =>
    cases h' with
    | since start' _ => rw [start.unique start']
    | upTo colon' _ => exact absurd colon' start.not_colon
  | upTo colon stop =>
    cases h' with
    | since start _ => exact absurd colon start.not_colon
    | upTo _ stop' => rw [stop.unique stop']
  | between start _ stop =>
    cases h' with
    | between start' _ stop' => rw [start.unique start', stop.unique stop']

/-- Where lexemes of one sort end before one of another sort is determined. -/
theorem eq_of_append_eq {sort : Lexeme → Prop} {ls ls' more more' : List Lexeme} {r r' : Lexeme}
    (h : ∀ l ∈ ls, sort l) (h' : ∀ l ∈ ls', sort l) (other : ¬ sort r) (other' : ¬ sort r')
    (same : ls ++ r :: more = ls' ++ r' :: more') : ls = ls' := by
  induction ls generalizing ls' with
  | nil =>
    cases ls' with
    | nil => rfl
    | cons l ls' =>
      cases same
      exact absurd (h' _ (List.mem_cons_self ..)) other
  | cons l ls ih =>
    cases ls' with
    | nil =>
      cases same
      exact absurd (h _ (List.mem_cons_self ..)) other'
    | cons l' ls' =>
      simp only [List.cons_append, List.cons.injEq] at same
      obtain ⟨rfl, same⟩ := same
      rw [ih (fun l mem => h l (List.mem_cons_of_mem _ mem))
        (fun l mem => h' l (List.mem_cons_of_mem _ mem)) same]

/-! ### Selectors -/

/-- Selectors begin with a dot or a bracket, so that no name comes next wherever they may end. -/
theorem Segments.follows {ls more : List Lexeme} {steps : List Selector} (h : Segments ls steps)
    (further : Follows endsOperand more) : Follows (fun kind => !kind.isName) (ls ++ more) := by
  cases h with
  | nil =>
    refine further.mono fun kind => ?_
    cases kind <;> decide
  | dot dot _ => simp only [List.cons_append, follows_cons, dot, TokenKind.isName]; rfl
  | key dot _ _ => simp only [List.cons_append, follows_cons, dot, TokenKind.isName]; rfl
  | bracket left _ _ _ => simp only [List.cons_append, follows_cons, left, TokenKind.isName]; rfl

theorem determined_segments : Determined Segments endsOperand := by
  intro ls ls' steps steps' more more' h h' same further further'
  -- Neither a dot nor a bracket may follow.
  have refuted {l : Lexeme} {more rest : List Lexeme} (kind : l.kind = .dot ∨ l.kind = .leftBracket)
      (next : Follows endsOperand more) (same : more = l :: rest) : False := by
    rw [same, follows_cons] at next
    rcases kind with kind | kind <;> rw [kind] at next <;> cases next
  -- After a dot without a name, there is none.
  have nameless {name : Lexeme} {ls more rest : List Lexeme} {steps : List Selector}
      (isName : name.kind.isName) (segments : Segments ls steps)
      (next : Follows endsOperand more) (same : ls ++ more = name :: rest) : False := by
    have kind := segments.follows next
    rw [same, follows_cons, isName] at kind
    cases kind
  -- A dot is no bracket.
  have apart {l : Lexeme} (dot : l.kind = .dot) (left : l.kind = .leftBracket) : False := by
    rw [dot] at left
    cases left
  induction h generalizing ls' steps' with
  | nil =>
    cases h' with
    | nil => exact ⟨rfl, rfl⟩
    | dot dot _ => exact (refuted (.inl dot) further same).elim
    | key dot _ _ => exact (refuted (.inl dot) further same).elim
    | bracket left _ _ _ => exact (refuted (.inr left) further same).elim
  | dot dot rest ih =>
    cases h' with
    | nil => exact (refuted (.inl dot) further' same.symm).elim
    | dot _ rest' =>
      obtain ⟨rfl, tails⟩ := List.cons.inj same
      obtain ⟨rfl, rfl⟩ := ih rest' tails
      exact ⟨rfl, rfl⟩
    | key _ isName _ =>
      obtain ⟨rfl, tails⟩ := List.cons.inj same
      exact (nameless isName rest further tails).elim
    | bracket left _ _ _ =>
      obtain ⟨rfl, -⟩ := List.cons.inj same
      exact (apart dot left).elim
  | key dot isName rest ih =>
    cases h' with
    | nil => exact (refuted (.inl dot) further' same.symm).elim
    | dot _ rest' =>
      obtain ⟨rfl, tails⟩ := List.cons.inj same
      exact (nameless isName rest' further' tails.symm).elim
    | key _ _ rest' =>
      simp only [List.cons_append, List.cons.injEq] at same
      obtain ⟨rfl, rfl, tails⟩ := same
      obtain ⟨rfl, rfl⟩ := ih rest' tails
      exact ⟨rfl, rfl⟩
    | bracket left _ _ _ =>
      obtain ⟨rfl, -⟩ := List.cons.inj same
      exact (apart dot left).elim
  | bracket left range right rest ih =>
    cases h' with
    | nil => exact (refuted (.inr left) further' same.symm).elim
    | dot dot _ =>
      obtain ⟨rfl, -⟩ := List.cons.inj same
      exact (apart dot left).elim
    | key dot _ _ =>
      obtain ⟨rfl, -⟩ := List.cons.inj same
      exact (apart dot left).elim
    | bracket _ range' right' rest' =>
      simp only [List.cons_append, List.append_assoc, List.cons.injEq] at same
      obtain ⟨rfl, same⟩ := same
      obtain rfl := eq_of_append_eq range.kind range'.kind (by simp [right]) (by simp [right']) same
      obtain rfl := range.unique range'
      obtain ⟨rfl, tails⟩ := List.cons.inj (List.append_cancel_left same)
      obtain ⟨rfl, rfl⟩ := ih rest' tails
      exact ⟨rfl, rfl⟩

theorem Path.unique {steps : List Selector} {f g : Filter} (h : Path steps f) (h' : Path steps g) :
    f = g := by
  cases h <;> cases h' <;> rfl

theorem determined_selectors : Determined Selectors endsOperand := by
  rintro ls ls' f f' more more' ⟨_, steps, segments, path⟩ ⟨_, steps', segments', path'⟩ same
    further further'
  obtain ⟨rfl, rfl⟩ := determined_segments segments segments' same further further'
  exact ⟨rfl, path.unique path'⟩

/-! ### Operands -/

/-- The kinds with which a literal begins. -/
def opensLiteral : TokenKind → Bool
  | .number => true
  | .minus => true
  | .quoted => true
  | .text => true
  | _ => false

/-- The kinds with which selectors begin. -/
def opensSelectors : TokenKind → Bool
  | .dot => true
  | .leftBracket => true
  | _ => false

theorem opensSelectors_iff {kind : TokenKind} :
    opensSelectors kind ↔ kind = .dot ∨ kind = .leftBracket := by
  cases kind <;> decide

/-- A phrase begins with a lexeme of some kinds. -/
def OpensWith (opens : TokenKind → Bool) (ls : List Lexeme) : Prop :=
  ∃ l rest, ls = l :: rest ∧ opens l.kind

theorem Selectors.opens {ls : List Lexeme} {f : Filter} (h : Selectors ls f) :
    OpensWith opensSelectors ls := by
  obtain ⟨nonempty, steps, segments, -⟩ := h
  cases segments with
  | nil => exact absurd rfl nonempty
  | dot dot _ => exact ⟨_, _, rfl, by rw [dot]; rfl⟩
  | key dot _ _ => exact ⟨_, _, rfl, by rw [dot]; rfl⟩
  | bracket left _ _ _ => exact ⟨_, _, rfl, by rw [left]; rfl⟩

theorem Literal.opens {ls : List Lexeme} {f : Filter} (h : Literal ls f) :
    OpensWith opensLiteral ls := by
  cases h with
  | number number => exact ⟨_, _, rfl, by rw [number.kind]; rfl⟩
  | negative minus _ => exact ⟨_, _, rfl, by rw [minus]; rfl⟩
  | quoted kind => exact ⟨_, _, rfl, by rw [kind]; rfl⟩
  | length kind _ => exact ⟨_, _, rfl, by rw [kind]; rfl⟩
  | text kind _ => exact ⟨_, _, rfl, by rw [kind]; rfl⟩

theorem Mapping.opens {Chain : List Lexeme → Filter → Prop} {ls : List Lexeme} {f : Filter}
    (h : Mapping Chain ls f) : OpensWith (· = .leftBrace) ls := by
  cases h with
  | empty left _ => exact ⟨_, _, rfl, by rw [left]; rfl⟩
  | entries left _ _ => exact ⟨_, _, rfl, by rw [left]; rfl⟩

/-- Phrases in front of the same lexemes begin alike. -/
theorem OpensWith.common {opens opens' : TokenKind → Bool} {ls ls' more more' : List Lexeme}
    (h : OpensWith opens ls) (h' : OpensWith opens' ls') (same : ls ++ more = ls' ++ more') :
    ∃ kind, opens kind ∧ opens' kind := by
  obtain ⟨l, rest, rfl, kind⟩ := h
  obtain ⟨l', rest', rfl, kind'⟩ := h'
  obtain ⟨rfl, -⟩ := List.cons.inj same
  exact ⟨l.kind, kind, kind'⟩

theorem determined_literal : Determined Literal endsOperand := by
  intro ls ls' f f' more more' h h' same _ _
  cases h <;> cases h' <;> obtain ⟨rfl, tails⟩ := List.cons.inj same
  case number.number number _ number' =>
    rw [number.unique number']
    exact ⟨rfl, rfl⟩
  case negative.negative number _ _ number' _ =>
    obtain ⟨rfl, -⟩ := List.cons.inj tails
    rw [number.unique number']
    exact ⟨rfl, rfl⟩
  case quoted.quoted => exact ⟨rfl, rfl⟩
  case length.length => exact ⟨rfl, rfl⟩
  case text.text => exact ⟨rfl, rfl⟩
  case length.text text _ other => exact absurd text other
  case text.length other _ text => exact absurd text other
  -- The others begin with lexemes of different kinds.
  all_goals grind [IsNumber]

theorem determined_operand {Mapping : List Lexeme → Filter → Prop}
    (mapping : Determined Mapping endsOperand)
    (opens : ∀ {ls f}, Mapping ls f → OpensWith (· = .leftBrace) ls) :
    Determined (Operand Mapping) endsOperand := by
  intro ls ls' f f' more more' h h' same further further'
  -- Phrases of different sorts do not begin alike.
  have apart {opens opens' : TokenKind → Bool} (phrase : OpensWith opens ls)
      (phrase' : OpensWith opens' ls') (disjoint : ∀ kind, opens kind → ¬ opens' kind) : False := by
    obtain ⟨kind, opened, opened'⟩ := phrase.common phrase' same
    exact disjoint kind opened opened'
  cases h with
  | selectors selectors =>
    cases h' with
    | selectors selectors' => exact determined_selectors selectors selectors' same further further'
    | literal literal' =>
      exact (apart selectors.opens literal'.opens (by rintro ⟨⟩ <;> decide)).elim
    | mapping mapping' =>
      exact (apart selectors.opens (opens mapping') (by rintro ⟨⟩ <;> decide)).elim
  | literal literal =>
    cases h' with
    | selectors selectors' =>
      exact (apart literal.opens selectors'.opens (by rintro ⟨⟩ <;> decide)).elim
    | literal literal' => exact determined_literal literal literal' same further further'
    | mapping mapping' =>
      exact (apart literal.opens (opens mapping') (by rintro ⟨⟩ <;> decide)).elim
  | mapping phrase =>
    cases h' with
    | selectors selectors' =>
      exact (apart (opens phrase) selectors'.opens (by rintro ⟨⟩ <;> decide)).elim
    | literal literal' =>
      exact (apart (opens phrase) literal'.opens (by rintro ⟨⟩ <;> decide)).elim
    | mapping phrase' => exact mapping phrase phrase' same further further'

/-! ### Filters -/

section Filters

variable {Mapping : List Lexeme → Filter → Prop}

theorem determined_product (operand : Determined (Operand Mapping) endsOperand) :
    Determined (Product Mapping) endsProduct :=
  determined_joined
    (determined_separated operand rfl endsOperand_of_endsProduct rfl) LeftNested.unique

theorem determined_sum (product : Determined (Product Mapping) endsProduct) :
    Determined (Sum Mapping) endsSum :=
  determined_joined
    (determined_separated product rfl endsProduct_of_endsSum rfl) LeftNested.unique

theorem determined_chainOver (sum : Determined (Sum Mapping) endsSum) :
    Determined (ChainOver Mapping) endsChain :=
  determined_joined
    (determined_separated sum rfl endsSum_of_endsChain rfl) Collapsed.unique

end Filters

theorem determined_entry {Chain : List Lexeme → Filter → Prop}
    (chain : Determined Chain endsChain) : Determined (Entry Chain) endsChain := by
  rintro _ _ _ _ more more' ⟨_, _, value⟩ ⟨_, _, value'⟩ same further further'
  simp only [List.cons_append, List.cons.injEq] at same
  obtain ⟨rfl, rfl, same⟩ := same
  obtain ⟨rfl, rfl⟩ := chain value value' same further further'
  exact ⟨rfl, rfl⟩

/-- A mapping ends with its closing brace, whatever follows. -/
theorem determined_mapping {Chain : List Lexeme → Filter → Prop}
    (chain : Determined Chain endsChain) : Determined (Mapping Chain) endsOperand := by
  intro ls ls' f f' more more' h h' same _ _
  -- The brace does not continue an entry.
  have closes {r : Lexeme} (right : r.kind = .rightBrace) (more : List Lexeme) :
      Follows endsChains (r :: more) := by
    rw [follows_cons, right]
    rfl
  have entries : Determined (Separated .comma (Entry Chain)) endsChains :=
    determined_separated (determined_entry chain) rfl endsChain_of_endsChains rfl
  -- Nor does it open one.
  have nonempty {ls : List Lexeme} {es : List (String × Filter)} {r : Lexeme}
      {more rest : List Lexeme} (h : Separated .comma (Entry Chain) ls es)
      (right : r.kind = .rightBrace) (same : r :: more = ls ++ rest) : False := by
    rcases h with ⟨⟨isName, _, _⟩, _⟩
    obtain ⟨rfl, -⟩ := List.cons.inj same
    rw [right] at isName
    cases isName
  cases h with
  | empty left right =>
    cases h' with
    | empty _ _ =>
      simp only [List.cons_append, List.cons.injEq] at same
      obtain ⟨rfl, rfl, -⟩ := same
      exact ⟨rfl, rfl⟩
    | entries _ phrases _ =>
      simp only [List.cons_append, List.append_assoc, List.cons.injEq] at same
      exact (nonempty phrases right same.2).elim
  | entries left phrases right =>
    cases h' with
    | empty _ right' =>
      simp only [List.cons_append, List.append_assoc, List.cons.injEq] at same
      exact (nonempty phrases right' same.2.symm).elim
    | entries _ phrases' right' =>
      simp only [List.cons_append, List.append_assoc, List.cons.injEq] at same
      obtain ⟨rfl, same⟩ := same
      obtain ⟨rfl, rfl⟩ := entries phrases phrases' same (closes right _) (closes right' _)
      obtain ⟨rfl, -⟩ := List.cons.inj (List.append_cancel_left same)
      exact ⟨rfl, rfl⟩

theorem MappingWithin.opens {depth : Nat} {ls : List Lexeme} {f : Filter}
    (h : MappingWithin depth ls f) : OpensWith (· = .leftBrace) ls := by
  cases depth with
  | zero => exact h.elim
  | succ depth => exact Mapping.opens h

theorem determined_chain (depth : Nat) : Determined (Chain depth) endsChain := by
  have chain {depth : Nat} (mapping : Determined (MappingWithin depth) endsOperand) :
      Determined (Chain depth) endsChain :=
    determined_chainOver <| determined_sum <| determined_product <|
      determined_operand mapping MappingWithin.opens
  have mapping : Determined (MappingWithin depth) endsOperand := by
    induction depth with
    | zero =>
      intro _ _ _ _ _ _ h
      exact h.elim
    | succ depth ih => exact determined_mapping (chain ih)
  exact chain mapping

/-! ### Whole programs -/

/-- Lexemes stand for one program at most, whatever number of levels is allowed for each. -/
theorem eq_of_program {depth depth' : Nat} {ls : List Lexeme} {f g : Filter}
    (h : Program depth ls f) (h' : Program depth' ls g) : f = g := by
  have determined : Determined (Program (max depth depth')) endsChains :=
    determined_joined
      (determined_separated (determined_chain _) rfl endsChain_of_endsChains rfl) Collapsed.unique
  have same : ls ++ [] = ls ++ [] := rfl
  have left := h.mono (Nat.le_max_left depth depth')
  have right := h'.mono (Nat.le_max_right depth depth')
  exact (determined left right same follows_nil follows_nil).2

end Grammar

end TreeQuery
