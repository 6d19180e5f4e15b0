import TreeQuery.Proofs.Filter.Rendering
import TreeQuery.Proofs.Query.Composition

/-!
# Normal trees

There are no parentheses, so not every tree can be written. What stands next to an operator, a bar
or a comma is ranked: a star binds more closely than a plus sign, this more closely than a bar, and
a bar more closely than a comma. The parts of a form have lower ranks than the form itself; only on
the left of an operator the form may stand again. A single part is never wrapped.

Texts and names stand between quotes at most, so they have no quotes in them, and line ends are
read as line feeds. Positions are words, and numbers are never NaN.

## Main definitions

* `Filter.rank` — how loosely the outermost form of a tree holds it together
* `Filter.Normal` — the trees that can be written
* `Grammar.RankedPhrase` — the lines of the grammar, by the ranks of what they stand for

## Main statements

* `Grammar.RankedPhrase.normal` — what phrases stand for is normal
-/

namespace TreeQuery

/-- The text can stand between quotes. -/
def Quotable (s : String) : Prop := '"' ∉ s.toList ∧ '\r' ∉ s.toList

/-- How loosely an operator binds. -/
def Operator.rank : Operator → Nat
  | multiply => 1
  | add => 2

/-- A step that can be written. -/
def Selector.Normal : Selector → Prop
  | identity => True
  | key name => Quotable name
  | index i => i < 2 ^ 64
  | slice s => s.start < 2 ^ 64 ∧ (∀ stop, s.stop = some stop → stop < 2 ^ 64) ∧
      (s.all = true → s.start = 0 ∧ s.stop = none)

namespace Filter

/-- How loosely the outermost form holds a tree together: not at all an operand, most loosely a
group. -/
def rank : Filter → Nat
  | binary op _ _ => op.rank
  | pipe _ => 3
  | group _ => 4
  | _ => 0

/-- A tree that can be written. Operands are products at most on the left of a star and sums at most
on the left of a plus sign; on the right they are bound more closely. The stages of a pipe are sums
at most. The values of a mapping and the members of a group may be pipes as well, but no groups. -/
inductive Normal : Filter → Prop
  | text {s : String} (quotable : Quotable s) : Normal (text s)
  | number {x : Float} (isNumber : x.isNaN = false) : Normal (number x)
  | length : Normal length
  | select {s : Selector} (step : s.Normal) : Normal (select s)
  | path {steps : List Selector} (several : 2 ≤ steps.length)
      (each : ∀ s ∈ steps, s ≠ .identity ∧ s.Normal) : Normal (path steps)
  | binary {op : Operator} {left right : Filter} (normal : Normal left) (normal' : Normal right)
      (rank : left.rank ≤ op.rank) (rank' : right.rank < op.rank) : Normal (binary op left right)
  | group {members : List Filter} (several : 2 ≤ members.length)
      (each : ∀ f ∈ members, Normal f) (ranks : ∀ f ∈ members, f.rank ≤ 3) : Normal (group members)
  | mapping {entries : List (String × Filter)} (names : ∀ e ∈ entries, Quotable e.1)
      (each : ∀ e ∈ entries, Normal e.2) (ranks : ∀ e ∈ entries, e.2.rank ≤ 3) :
      Normal (mapping entries)
  | pipe {stages : List Filter} (several : 2 ≤ stages.length)
      (each : ∀ f ∈ stages, Normal f) (ranks : ∀ f ∈ stages, f.rank ≤ 2) : Normal (pipe stages)

end Filter

namespace Grammar

variable {α : Type} {ls : List Lexeme} {f : Filter}

/-- The line of the grammar for filters of some rank, with mappings within `m` levels. -/
def RankedPhrase (m : Nat) : (rank : Nat) → List Lexeme → Filter → Prop
  | 0 => Operand (MappingWithin m)
  | 1 => Product (MappingWithin m)
  | 2 => Sum (MappingWithin m)
  | 3 => Chain m
  | _ + 4 => Program m

/-! ### Phrases with separators -/

/-- The lexemes of a phrase are among those of the phrases together. -/
theorem Trailing.with_clean {separator : TokenKind} {Phrase : List Lexeme → α → Prop} {as : List α}
    (phrases : Trailing separator Phrase ls as) (clean : ∀ l ∈ ls, l.Clean) :
    Trailing separator (fun ls a => (∀ l ∈ ls, l.Clean) ∧ Phrase ls a) ls as := by
  induction phrases with
  | nil => exact .nil
  | cons between phrase _ ih =>
    rw [List.forall_mem_cons, List.forall_mem_append] at clean
    exact .cons between ⟨clean.2.1, phrase⟩ (ih clean.2.2)

theorem Separated.forall_mem_of_clean {separator : TokenKind} {Phrase : List Lexeme → α → Prop}
    {as : List α} {p : α → Prop} (phrases : Separated separator Phrase ls as)
    (clean : ∀ l ∈ ls, l.Clean) (each : ∀ ls a, (∀ l ∈ ls, l.Clean) → Phrase ls a → p a) :
    ∀ a ∈ as, p a := by
  obtain ⟨first, rest⟩ := phrases
  rw [List.forall_mem_append] at clean
  have rest := rest.with_clean clean.2
  exact List.forall_mem_cons.mpr
    ⟨each _ _ clean.1 first, rest.forall_mem fun ls a phrase => each ls a phrase.1 phrase.2⟩

/-! ### What phrases stand for -/

/-- Phrases of clean lexemes stand for normal filters of that rank at most. -/
def Ranks (Phrase : List Lexeme → Filter → Prop) (rank : Nat) : Prop :=
  ∀ ls f, (∀ l ∈ ls, l.Clean) → Phrase ls f → f.Normal ∧ f.rank ≤ rank

theorem LeftNested.normal {op : Operator} {fs : List Filter} (nested : LeftNested op fs f)
    (each : ∀ g ∈ fs, g.Normal ∧ g.rank < op.rank) : f.Normal ∧ f.rank ≤ op.rank := by
  obtain ⟨first, rest⟩ := nested
  rw [List.forall_mem_cons] at each
  obtain ⟨⟨normal, below⟩, each⟩ := each
  have rank : first.rank ≤ op.rank := Nat.le_of_lt below
  clear below
  -- What has been joined stands on the left of what comes next.
  induction rest generalizing first with
  | nil => exact ⟨normal, rank⟩
  | cons g rest ih =>
    rw [List.forall_mem_cons] at each
    obtain ⟨⟨normal', rank'⟩, each⟩ := each
    exact ih (.binary op first g) each (.binary normal normal' rank rank') (Nat.le_refl _)

theorem Ranks.joined_leftNested {Phrase : List Lexeme → Filter → Prop} {separator : TokenKind}
    {op : Operator} {rank : Nat} (ranks : Ranks Phrase rank) (above : op.rank = rank + 1) :
    Ranks (Joined separator (LeftNested op) Phrase) (rank + 1) := by
  rintro ls f clean ⟨fs, phrases, nested⟩
  rw [← above]
  refine nested.normal (phrases.forall_mem_of_clean clean fun ls g clean phrase => ?_)
  obtain ⟨normal, below⟩ := ranks ls g clean phrase
  exact ⟨normal, by omega⟩

theorem Ranks.joined_collapsed {Phrase : List Lexeme → Filter → Prop} {separator : TokenKind}
    {form : List Filter → Filter} {rank : Nat} (ranks : Ranks Phrase rank)
    (above : ∀ fs, (form fs).rank = rank + 1)
    (normal : ∀ {fs}, 2 ≤ fs.length → (∀ g ∈ fs, g.Normal) → (∀ g ∈ fs, g.rank ≤ rank) →
      (form fs).Normal) :
    Ranks (Joined separator (Collapsed form) Phrase) (rank + 1) := by
  rintro ls f clean ⟨fs, phrases, collapsed⟩
  have each : ∀ g ∈ fs, g.Normal ∧ g.rank ≤ rank := phrases.forall_mem_of_clean clean ranks
  cases collapsed with
  | one f =>
    obtain ⟨normal', below⟩ := each f (List.mem_singleton.mpr rfl)
    exact ⟨normal', Nat.le_succ_of_le below⟩
  | several f g fs =>
    have several : 2 ≤ (f :: g :: fs).length := by simp
    exact ⟨normal several (fun g mem => (each g mem).1) fun g mem => (each g mem).2,
      Nat.le_of_eq (above _)⟩

/-! ### Selectors and literals -/

theorem Range.normal {step : Selector} (range : Range ls step) :
    step ≠ .identity ∧ step.Normal := by
  refine ⟨?_, ?_⟩
  · rintro rfl
    cases range
  cases range with
  | empty | colon => simp [Selector.Normal]
  | index index => exact index.bound
  | since start => exact ⟨start.bound, nofun, nofun⟩
  | upTo _ stop =>
    refine ⟨Nat.two_pow_pos 64, fun j same => ?_, nofun⟩
    exact Option.some.inj same ▸ stop.bound
  | between start _ stop =>
    refine ⟨start.bound, fun j same => ?_, nofun⟩
    exact Option.some.inj same ▸ stop.bound

theorem Segments.normal {steps : List Selector} (segments : Segments ls steps)
    (clean : ∀ l ∈ ls, l.Clean) : ∀ s ∈ steps, s ≠ .identity ∧ s.Normal := by
  induction segments with
  | nil => exact fun _ mem => nomatch mem
  | dot _ _ ih => exact ih fun l mem => clean l (List.mem_cons_of_mem _ mem)
  | @key d name ls steps _ _ _ ih =>
    rw [List.forall_mem_cons, List.forall_mem_cons] at clean
    exact List.forall_mem_cons.mpr ⟨⟨nofun, clean.2.1⟩, ih clean.2.2⟩
  | bracket _ range _ _ ih =>
    rw [List.forall_mem_cons, List.forall_mem_append, List.forall_mem_cons] at clean
    exact List.forall_mem_cons.mpr ⟨range.normal, ih clean.2.2.2⟩

theorem ranks_selectors : Ranks Selectors 0 := by
  rintro ls f clean ⟨-, steps, segments, path⟩
  have each := segments.normal clean
  cases path with
  | none => exact ⟨.select trivial, Nat.le_refl 0⟩
  | one s => exact ⟨.select (each s (List.mem_singleton.mpr rfl)).2, Nat.le_refl 0⟩
  | several s t steps => exact ⟨.path (by simp) each, Nat.le_refl 0⟩

theorem ranks_literal : Ranks Literal 0 := by
  intro ls f clean literal
  cases literal with
  | number number => exact ⟨.number number.isNaN, Nat.le_refl 0⟩
  | negative _ number =>
    refine ⟨.number ?_, Nat.le_refl 0⟩
    rw [Binary64.isNaN_neg]
    exact number.isNaN
  | @quoted l _ => exact ⟨.text (clean l (List.mem_singleton.mpr rfl)), Nat.le_refl 0⟩
  | length => exact ⟨.length, Nat.le_refl 0⟩
  | @text l _ _ => exact ⟨.text (clean l (List.mem_singleton.mpr rfl)), Nat.le_refl 0⟩

/-! ### Filters -/

theorem Ranks.operand {Mapping : List Lexeme → Filter → Prop} (ranks : Ranks Mapping 0) :
    Ranks (Operand Mapping) 0 := by
  intro ls f clean operand
  cases operand with
  | selectors selectors => exact ranks_selectors ls f clean selectors
  | literal literal => exact ranks_literal ls f clean literal
  | mapping mapping => exact ranks ls f clean mapping

theorem Ranks.product {Mapping : List Lexeme → Filter → Prop} (ranks : Ranks Mapping 0) :
    Ranks (Product Mapping) 1 :=
  ranks.operand.joined_leftNested rfl

theorem Ranks.sum {Mapping : List Lexeme → Filter → Prop} (ranks : Ranks Mapping 0) :
    Ranks (Sum Mapping) 2 :=
  ranks.product.joined_leftNested rfl

theorem Ranks.chainOver {Mapping : List Lexeme → Filter → Prop} (ranks : Ranks Mapping 0) :
    Ranks (ChainOver Mapping) 3 :=
  ranks.sum.joined_collapsed (fun _ => rfl) .pipe

theorem Ranks.mapping {Chain : List Lexeme → Filter → Prop} (ranks : Ranks Chain 3) :
    Ranks (Mapping Chain) 0 := by
  intro ls f clean mapping
  refine ⟨?_, by cases mapping <;> exact Nat.le_refl 0⟩
  cases mapping with
  | empty => exact .mapping nofun nofun nofun
  | @entries l r ls es _ entries _ =>
    rw [List.forall_mem_cons, List.forall_mem_append] at clean
    have each : ∀ e ∈ es, Quotable e.1 ∧ e.2.Normal ∧ e.2.rank ≤ 3 := by
      refine entries.forall_mem_of_clean clean.2.1 fun ls e clean entry => ?_
      cases entry with
      | @intro name c ls f _ _ value =>
        rw [List.forall_mem_cons, List.forall_mem_cons] at clean
        exact ⟨clean.1, ranks ls f clean.2.2 value⟩
    exact .mapping (fun e mem => (each e mem).1) (fun e mem => (each e mem).2.1)
      fun e mem => (each e mem).2.2

theorem ranks_mappingWithin (m : Nat) : Ranks (MappingWithin m) 0 := by
  induction m with
  | zero => exact fun _ _ _ none => none.elim
  | succ m ih => exact ih.chainOver.mapping

/-- What phrases of clean lexemes stand for is normal, and the line of the grammar bounds its
rank. -/
theorem RankedPhrase.normal {m rank : Nat} (phrase : RankedPhrase m rank ls f)
    (clean : ∀ l ∈ ls, l.Clean) : f.Normal ∧ f.rank ≤ rank := by
  have ranks := ranks_mappingWithin m
  match rank, phrase with
  | 0, operand => exact ranks.operand ls f clean operand
  | 1, product => exact ranks.product ls f clean product
  | 2, sum => exact ranks.sum ls f clean sum
  | 3, chain => exact ranks.chainOver ls f clean chain
  | rank + 4, program =>
    have program' : Joined .comma (Collapsed .group) (Chain m) ls f := program
    obtain ⟨normal, below⟩ :=
      ranks.chainOver.joined_collapsed (fun _ => rfl) .group ls f clean program'
    exact ⟨normal, by omega⟩

end Grammar

end TreeQuery
