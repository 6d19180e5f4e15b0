import TreeQuery.Proofs.Grammar.Basic
import TreeQuery.Proofs.Grammar.Reading

/-!
# What is parsed stands in the grammar

Every production that gives a value has passed lexemes that stand for this value in the grammar, and
has stopped right after them. The proof goes by induction on the allowance, one production at a
time; each production is put together from rules for reading one phrase after the other.

The same induction shows that a parser never meets a number without a value, as long as the numbers
of its scanner have one.

## Main definitions

* `Parser.Readable` — the numbers that are still to come have values
* `Parsing.Reads` — a run passes a phrase of some kind

## Main statements

* `Parsing.sound_all` — each production reads the phrases of its line in the grammar
* `Parsing.program_meets` — so does a whole program, up to the end of the text
-/

namespace TreeQuery

/-- The causes of failure other than a number without a value. -/
def ParseError.NotOfNumber : ParseError → Prop
  | invalidNumber .. => False
  | _ => True

/-- Every number that is still to come has a value. -/
def Parser.Readable (p : Parser) : Prop :=
  ∀ l ∈ p.view.1, l.kind = .number → (Decimal.ofNumeral? l.text.toList).isSome

theorem Parser.Passes.readable {p q : Parser} {ls : List Lexeme} (h : Passes p ls q)
    (readable : p.Readable) : q.Readable :=
  fun l mem => readable l (h.mem mem)

namespace Parsing

open Run TreeQuery.Parser

variable {α β : Type} {p q : Parser} {ls : List Lexeme} {t : Token}

/-- Started at `q`, the run passes the rest of a phrase that began at `p`, and gives what the phrase
stands for. -/
def Reads (p q : Parser) (r : Parsing α) (Phrase : List Lexeme → α → Prop) : Prop :=
  p.Readable →
    Meets r q (fun a q' => ∃ ls, Phrase ls a ∧ p.Passes ls q') ParseError.NotOfNumber

/-! ### One phrase after the other -/

section Rules

variable {Phrase : List Lexeme → α → Prop} {Phrase' : List Lexeme → β → Prop}

theorem reads_cutOff : Reads p q .cutOff Phrase :=
  fun _ => meets_cutOff

theorem reads_pure {a : α} (passed : p.Passes ls q) (phrase : Phrase ls a) :
    Reads p q (pure a) Phrase :=
  fun _ => meets_pure ⟨ls, phrase, passed⟩

theorem reads_throw {e : ParseError} (h : e.NotOfNumber) : Reads p q (throw e) Phrase :=
  fun _ => meets_throw h

theorem refuse_meets {expected : Expectation} {good : α → Parser → Prop} :
    Meets (refuse t expected) q good ParseError.NotOfNumber := by
  refine meets_throw ?_
  unfold ParseError.ofToken
  split <;> trivial

theorem reads_refuse {expected : Expectation} : Reads p q (refuse t expected) Phrase :=
  fun _ => refuse_meets

/-- What is read from `q` on is the rest of what is read from `p` on. -/
theorem Reads.since {r : Parsing α} (passed : p.Passes ls q)
    (h : Reads q q r fun ls' a => Phrase (ls ++ ls') a) : Reads p q r Phrase := by
  intro readable
  refine (h (passed.readable readable)).mono ?_
  rintro a q' ⟨ls', phrase, further⟩
  exact ⟨ls ++ ls', phrase, passed.trans further⟩

/-- After a token was taken, the rest of a phrase is read. -/
theorem Reads.after {r : Parsing α} (taken : p.Takes t q) (inner : t.kind ≠ .finish)
    (h : Reads q q r fun ls a => Phrase (t.lexeme :: ls) a) : Reads p q r Phrase :=
  .since (taken.passes inner) h

theorem Reads.imp {Weaker : List Lexeme → α → Prop} {r : Parsing α} (h : Reads p q r Phrase)
    (weaker : ∀ ls a, Phrase ls a → Weaker ls a) : Reads p q r Weaker := by
  intro readable
  refine (h readable).mono ?_
  rintro a q' ⟨ls, phrase, passed⟩
  exact ⟨ls, weaker ls a phrase, passed⟩

theorem Reads.bind {r : Parsing α} {f : α → Parsing β} (h : Reads p q r Phrase)
    (hf : ∀ a q' ls, Phrase ls a → p.Passes ls q' → Reads p q' (f a) Phrase') :
    Reads p q (r >>= f) Phrase' := by
  intro readable
  refine (h readable).bind ?_
  rintro a q' ⟨ls, phrase, passed⟩
  exact hf a q' ls phrase passed readable

/-- Where the reading began does not matter for taking a token, nor for handing it back. -/
theorem reads_next {f : Token → Parsing β}
    (h : ∀ t q', q.Takes t q' → Reads p q' (f t) Phrase') : Reads p q (next >>= f) Phrase' := by
  intro readable
  have taken : Meets next q q.Takes ParseError.NotOfNumber := by
    refine (next_meets q).imp (fun _ _ taken => taken) ?_
    rintro e ⟨fault, rfl, _⟩
    trivial
  exact taken.bind fun t q' taken => h t q' taken readable

theorem reads_unread {q₀ : Parser} {f : Unit → Parsing β} (taken : q₀.Takes t q)
    (h : ∀ q', q₀.Passes [] q' → Reads p q' (f ()) Phrase') :
    Reads p q (unread t >>= f) Phrase' :=
  fun readable => (unread_meets taken).bind fun _ q' passed => h q' passed readable

/-- A mapping may be opened if the limit is not reached yet. -/
theorem reads_enter {position : Position} {f : Unit → Parsing β}
    (h : q.depth < q.maxDepth → Reads p { q with depth := q.depth + 1 } (f ()) Phrase') :
    Reads p q (enter position >>= f) Phrase' := by
  intro readable
  by_cases full : q.depth + 1 > q.maxDepth
  · intro result s ho
    rw [outcome_bind] at ho
    simp only [enter, outcome_ofOutcome, if_pos full] at ho
    cases ho
    trivial
  · intro result s ho
    rw [outcome_bind] at ho
    simp only [enter, outcome_ofOutcome, if_neg full] at ho
    exact h (by omega) readable result s ho

/-- After a mapping was closed, as many are open as before it. -/
theorem reads_leave {f : Unit → Parsing β}
    (passed : Passes { p with depth := p.depth + 1 } ls q)
    (h : ∀ q', p.Passes ls q' → Reads p q' (f ()) Phrase') : Reads p q (leave >>= f) Phrase' := by
  intro readable
  have closed : p.Passes ls { q with depth := q.depth - 1 } := by
    refine ⟨passed.view, ?_, passed.depth.maxDepth⟩
    rw [passed.depth.depth, Nat.add_sub_cancel]
  exact (meets_change closed).bind fun _ q' closed => h q' closed readable

end Rules

/-! ### Numbers and brackets -/

theorem numberOf_reads (taken : p.Takes t q) (kind : t.kind = .number) :
    Reads p q (numberOf t) fun ls x => ls = [t.lexeme] ∧ Grammar.IsNumber t.lexeme x := by
  have passed : p.Passes [t.lexeme] q := taken.passes (by rw [kind]; decide)
  intro readable
  have mem : t.lexeme ∈ p.view.1 := by
    rw [passed.view]
    exact List.mem_cons_self ..
  unfold numberOf
  split
  · next d value =>
    refine meets_pure ⟨[t.lexeme], ⟨rfl, kind, ?_⟩, passed⟩
    rw [Token.text_lexeme, value]
    rfl
  · next none =>
    -- A number without a value is not to come.
    have some := readable t.lexeme mem kind
    rw [Token.text_lexeme, none] at some
    cases some

theorem indexOf_reads (taken : p.Takes t q) (kind : t.kind = .number) :
    Reads p q (indexOf t) fun ls i => ls = [t.lexeme] ∧ Grammar.IsIndex t.lexeme i := by
  have passed : p.Passes [t.lexeme] q := taken.passes (by rw [kind]; decide)
  unfold indexOf
  dsimp only
  split
  · next h =>
    simp only [Bool.and_eq_true, Bool.not_eq_true', List.isEmpty_eq_false_iff, List.all_eq_true,
      decide_eq_true_eq] at h
    obtain ⟨⟨nonempty, digits⟩, bound⟩ := h
    exact reads_pure passed ⟨rfl, kind, nonempty, digits, rfl, bound⟩
  · exact reads_throw trivial

/-- What is known of a pair of brackets after some lexemes in it. -/
inductive Bracketed : List Lexeme → Bracket → Prop
  | empty : Bracketed [] ⟨none, none, false⟩
  | index {l : Lexeme} {i : Nat} (start : Grammar.IsIndex l i) : Bracketed [l] ⟨some i, none, false⟩
  | colon {c : Lexeme} (colon : c.kind = .colon) : Bracketed [c] ⟨none, none, true⟩
  | since {l c : Lexeme} {i : Nat} (start : Grammar.IsIndex l i) (colon : c.kind = .colon) :
      Bracketed [l, c] ⟨some i, none, true⟩
  | upTo {c r : Lexeme} {j : Nat} (colon : c.kind = .colon) (stop : Grammar.IsIndex r j) :
      Bracketed [c, r] ⟨none, some j, true⟩
  | between {l c r : Lexeme} {i j : Nat} (start : Grammar.IsIndex l i) (colon : c.kind = .colon)
      (stop : Grammar.IsIndex r j) : Bracketed [l, c, r] ⟨some i, some j, true⟩

/-- The selector for a pair of brackets is the one that its lexemes stand for. -/
theorem Bracketed.range {b : Bracket} (h : Bracketed ls b) : Grammar.Range ls b.toSelector := by
  cases h with
  | empty => exact .empty
  | index start => exact .index start
  | colon colon => exact .colon colon
  | since start colon => exact .since start colon
  | upTo colon stop => exact .upTo colon stop
  | between start colon stop => exact .between start colon stop

theorem bracket_reads (n : Nat) {b : Bracket} (before : Bracketed ls b) (p : Parser) :
    Reads p p (bracket n b) fun ls' step =>
      ∃ inner r, ls' = inner ++ [r] ∧ r.kind = .rightBracket ∧
        Grammar.Range (ls ++ inner) step := by
  induction n generalizing ls b p with
  | zero => exact reads_cutOff
  | succ n ih =>
    unfold bracket
    refine reads_next fun t q taken => ?_
    -- One lexeme more between the brackets leads to the next state of knowledge.
    have further {b' : Bracket} {q' : Parser} (passed : p.Passes [t.lexeme] q')
        (after : Bracketed (ls ++ [t.lexeme]) b') :
        Reads p q' (bracket n b') fun ls' step => ∃ inner r,
          ls' = inner ++ [r] ∧ r.kind = .rightBracket ∧ Grammar.Range (ls ++ inner) step := by
      refine .since passed ((ih after q').imp ?_)
      rintro _ step ⟨inner, r, rfl, right, range⟩
      refine ⟨t.lexeme :: inner, r, rfl, right, ?_⟩
      rwa [List.append_assoc] at range
    split
    · next kind colon start =>
      refine (indexOf_reads taken kind).bind ?_
      rintro i q' _ ⟨rfl, index⟩ passed
      refine further passed ?_
      cases before with
      | empty => exact .index index
      | _ => simp_all
    · next kind colon stop =>
      refine (indexOf_reads taken kind).bind ?_
      rintro j q' _ ⟨rfl, index⟩ passed
      refine further passed ?_
      cases before with
      | colon sign => exact .upTo sign index
      | since start sign => exact .between start sign index
      | _ => simp_all
    · next kind colon =>
      refine further (taken.passes (by rw [kind]; decide)) ?_
      cases before with
      | empty => exact .colon kind
      | index start => exact .since start kind
      | _ => simp_all
    · next kind =>
      refine reads_pure (taken.passes (by rw [kind]; decide)) ⟨[], t.lexeme, rfl, kind, ?_⟩
      rw [List.append_nil]
      exact before.range
    · exact reads_refuse

/-! ### Selectors -/

/-- Selectors are read up to the first token that belongs to none; so if the first one does, there
is something to read. -/
theorem steps_reads (n : Nat) (p : Parser) :
    Reads p p (steps n) fun ls steps => Grammar.Segments ls steps ∧
      ((∃ l rest, p.view.1 = l :: rest ∧ (l.kind = .dot ∨ l.kind = .leftBracket)) → ls ≠ []) := by
  induction n generalizing p with
  | zero => exact reads_cutOff
  | succ n ih =>
    unfold steps
    refine reads_next fun t q taken => ?_
    split
    · next kind =>
      refine .after taken (by rw [kind]; decide) (reads_next fun name q' taken' => ?_)
      split
      · next isName =>
        have inner : name.kind ≠ .finish := by
          intro last
          rw [last] at isName
          cases isName
        refine .after taken' inner ((ih q').bind fun rest q'' ls' read passed' => ?_)
        exact reads_pure passed' ⟨.key kind isName read.1, fun _ => List.cons_ne_nil _ _⟩
      · refine reads_unread taken' fun q'' passed' => .since passed' ((ih q'').imp ?_)
        intro ls' rest read
        exact ⟨.dot kind read.1, fun _ => List.cons_ne_nil _ _⟩
    · next kind =>
      refine .after taken (by rw [kind]; decide) ((bracket_reads n .empty q).bind ?_)
      rintro step q' _ ⟨inner, r, rfl, right, range⟩ passed'
      refine .since passed' ((ih q').bind fun rest q'' ls' read passed'' => ?_)
      refine reads_pure passed'' ⟨?_, fun _ => List.cons_ne_nil _ _⟩
      simpa using Grammar.Segments.bracket (l := t.lexeme) kind range right read.1
    · next noDot noBracket =>
      refine reads_unread taken fun q' passed => reads_pure passed ⟨.nil, ?_⟩
      rintro ⟨l, rest, view, kind⟩
      rw [taken.view] at view
      split at view
      · cases view
      · cases view
        exact (kind.elim noDot noBracket).elim

theorem path_ofSteps (steps : List Selector) : Grammar.Path steps (.ofSteps steps) := by
  match steps with
  | [] => exact .none
  | [s] => exact .one s
  | s :: t :: rest => exact .several s t rest

/-- After a look at the token that they begin with, selectors are read. -/
theorem selectors_reads (n : Nat) {t : Token} {p q : Parser} (taken : p.Takes t q)
    (kind : t.kind = .dot ∨ t.kind = .leftBracket) :
    Reads p q (unread t >>= fun _ => steps n >>= fun s => pure (Filter.ofSteps s))
      Grammar.Selectors := by
  have inner : t.kind ≠ .finish := by
    rcases kind with kind | kind <;> rw [kind] <;> decide
  refine reads_unread taken fun q' passed => .since passed ((steps_reads n q').bind ?_)
  rintro steps q'' ls ⟨segments, nonempty⟩ passed'
  have view : q'.view.1 = t.lexeme :: q.view.1 := by
    have same := passed.view
    rw [taken.view, if_neg inner] at same
    exact (congrArg Prod.fst same).symm
  exact reads_pure passed' ⟨nonempty ⟨_, _, view, kind⟩, steps, segments, path_ofSteps steps⟩

theorem collapsed_ofStages (first : Filter) (rest : List Filter) :
    Grammar.Collapsed .pipe (first :: rest) (.ofStages first rest) := by
  cases rest with
  | nil => exact .one first
  | cons g gs => exact .several first g gs

theorem collapsed_ofChains (first : Filter) (rest : List Filter) :
    Grammar.Collapsed .group (first :: rest) (.ofChains first rest) := by
  cases rest with
  | nil => exact .one first
  | cons g gs => exact .several first g gs

/-! ### Filters -/

/-- What the productions read with an allowance of `n`, where `d` more mappings may be opened. -/
structure Sound (n d : Nat) : Prop where
  chain : ∀ p, p.room = d → Reads p p (chain n) (Grammar.Chain d)
  stages : ∀ p, p.room = d →
    Reads p p (stages n) (Grammar.Trailing .pipe (Grammar.Sum (Grammar.MappingWithin d)))
  sum : ∀ p, p.room = d → Reads p p (sum n) (Grammar.Sum (Grammar.MappingWithin d))
  summands : ∀ p left, p.room = d → Reads p p (summands n left) fun ls f =>
    ∃ rest, Grammar.Trailing .plus (Grammar.Product (Grammar.MappingWithin d)) ls rest ∧
      f = rest.foldl (.binary .add) left
  product : ∀ p, p.room = d → Reads p p (product n) (Grammar.Product (Grammar.MappingWithin d))
  factors : ∀ p left, p.room = d → Reads p p (factors n left) fun ls f =>
    ∃ rest, Grammar.Trailing .star (Grammar.Operand (Grammar.MappingWithin d)) ls rest ∧
      f = rest.foldl (.binary .multiply) left
  operand : ∀ p, p.room = d → Reads p p (operand n) (Grammar.Operand (Grammar.MappingWithin d))
  mapping : ∀ p, p.depth < p.maxDepth → p.room = d →
    Reads p { p with depth := p.depth + 1 } (mapping n) fun ls f =>
      ∀ l : Lexeme, l.kind = .leftBrace → Grammar.MappingWithin d (l :: ls) f
  entries : ∀ p, p.room = d → Reads p p (entries n) fun ls es =>
    ∃ inner r, ls = inner ++ [r] ∧ r.kind = .rightBrace ∧
      Grammar.Separated .comma (Grammar.Entry (Grammar.Chain d)) inner es

section Steps

variable {n d : Nat}

theorem Sound.chain_succ (ih : Sound n d) (p : Parser) (room : p.room = d) :
    Reads p p (Parsing.chain (n + 1)) (Grammar.Chain d) := by
  unfold Parsing.chain
  refine (ih.sum p room).bind fun first q ls phrase passed => ?_
  refine .since passed
    ((ih.stages q (passed.room.trans room)).bind fun rest q' ls' more passed' => ?_)
  exact reads_pure passed' ⟨_, .intro phrase more, collapsed_ofStages first rest⟩

theorem Sound.stages_succ (ih : Sound n d) (p : Parser) (room : p.room = d) :
    Reads p p (Parsing.stages (n + 1))
      (Grammar.Trailing .pipe (Grammar.Sum (Grammar.MappingWithin d))) := by
  unfold Parsing.stages
  refine reads_next fun t q taken => ?_
  split
  · next kind =>
    have room' : q.room = d := taken.depth.room.trans room
    refine .after taken (by rw [kind]; decide)
      ((ih.sum q room').bind fun stage q' ls phrase passed' => ?_)
    refine .since passed' ((ih.stages q' (passed'.room.trans room')).bind ?_)
    intro rest q'' ls' more passed''
    exact reads_pure passed'' (.cons kind phrase more)
  · exact reads_unread taken fun q' passed => reads_pure passed .nil

theorem Sound.sum_succ (ih : Sound n d) (p : Parser) (room : p.room = d) :
    Reads p p (Parsing.sum (n + 1)) (Grammar.Sum (Grammar.MappingWithin d)) := by
  unfold Parsing.sum
  refine (ih.product p room).bind fun left q ls phrase passed => .since passed ?_
  refine (ih.summands q left (passed.room.trans room)).imp ?_
  rintro ls' f ⟨rest, more, rfl⟩
  exact ⟨_, .intro phrase more, .intro left rest⟩

theorem Sound.summands_succ (ih : Sound n d) (p : Parser) (left : Filter) (room : p.room = d) :
    Reads p p (Parsing.summands (n + 1) left) fun ls f =>
      ∃ rest, Grammar.Trailing .plus (Grammar.Product (Grammar.MappingWithin d)) ls rest ∧
        f = rest.foldl (.binary .add) left := by
  unfold Parsing.summands
  refine reads_next fun t q taken => ?_
  split
  · next kind =>
    have room' : q.room = d := taken.depth.room.trans room
    refine .after taken (by rw [kind]; decide)
      ((ih.product q room').bind fun right q' ls phrase passed' => ?_)
    refine .since passed' ?_
    refine (ih.summands q' (.binary .add left right) (passed'.room.trans room')).imp ?_
    rintro ls' f ⟨rest, more, rfl⟩
    exact ⟨right :: rest, .cons kind phrase more, rfl⟩
  · exact reads_throw trivial
  · exact reads_throw trivial
  · exact reads_unread taken fun q' passed => reads_pure passed ⟨[], .nil, rfl⟩

theorem Sound.product_succ (ih : Sound n d) (p : Parser) (room : p.room = d) :
    Reads p p (Parsing.product (n + 1)) (Grammar.Product (Grammar.MappingWithin d)) := by
  unfold Parsing.product
  refine (ih.operand p room).bind fun left q ls phrase passed => .since passed ?_
  refine (ih.factors q left (passed.room.trans room)).imp ?_
  rintro ls' f ⟨rest, more, rfl⟩
  exact ⟨_, .intro phrase more, .intro left rest⟩

theorem Sound.factors_succ (ih : Sound n d) (p : Parser) (left : Filter) (room : p.room = d) :
    Reads p p (Parsing.factors (n + 1) left) fun ls f =>
      ∃ rest, Grammar.Trailing .star (Grammar.Operand (Grammar.MappingWithin d)) ls rest ∧
        f = rest.foldl (.binary .multiply) left := by
  unfold Parsing.factors
  refine reads_next fun t q taken => ?_
  split
  · next kind =>
    have room' : q.room = d := taken.depth.room.trans room
    refine .after taken (by rw [kind]; decide)
      ((ih.operand q room').bind fun right q' ls phrase passed' => ?_)
    refine .since passed' ?_
    refine (ih.factors q' (.binary .multiply left right) (passed'.room.trans room')).imp ?_
    rintro ls' f ⟨rest, more, rfl⟩
    exact ⟨right :: rest, .cons kind phrase more, rfl⟩
  · exact reads_unread taken fun q' passed => reads_pure passed ⟨[], .nil, rfl⟩

theorem Sound.operand_succ (ih : Sound n d) (p : Parser) (room : p.room = d) :
    Reads p p (Parsing.operand (n + 1)) (Grammar.Operand (Grammar.MappingWithin d)) := by
  unfold Parsing.operand
  refine reads_next fun t q taken => ?_
  split
  · next kind => exact (selectors_reads n taken (.inl kind)).imp fun _ _ => .selectors
  · next kind => exact (selectors_reads n taken (.inr kind)).imp fun _ _ => .selectors
  · next kind =>
    refine (numberOf_reads taken kind).bind ?_
    rintro x q' _ ⟨rfl, number⟩ passed
    exact reads_pure passed (.literal (.number number))
  · next kind =>
    refine .after taken (by rw [kind]; decide) (reads_next fun number q' taken' => ?_)
    split
    · next kind' =>
      refine (numberOf_reads taken' kind').bind ?_
      rintro x q'' _ ⟨rfl, value⟩ passed
      exact reads_pure passed (.literal (.negative kind value))
    · exact reads_refuse
  · next kind => exact reads_pure (taken.passes (by rw [kind]; decide)) (.literal (.quoted kind))
  · next kind =>
    refine reads_pure (taken.passes (by rw [kind]; decide)) ?_
    split
    · next same => exact .literal (.length kind same)
    · next other => exact .literal (.text kind other)
  · next kind =>
    refine .after taken (by rw [kind]; decide) (reads_enter fun below => ?_)
    refine (ih.mapping q below (taken.depth.room.trans room)).imp fun ls f phrase => ?_
    exact .mapping (phrase t.lexeme kind)
  · exact reads_refuse

theorem Sound.mapping_succ (ih : ∀ d, Sound n d) (p : Parser) (below : p.depth < p.maxDepth)
    (room : p.room = d) :
    Reads p { p with depth := p.depth + 1 } (Parsing.mapping (n + 1)) fun ls f =>
      ∀ l : Lexeme, l.kind = .leftBrace → Grammar.MappingWithin d (l :: ls) f := by
  obtain ⟨d, rfl⟩ : ∃ d', d = d' + 1 := by
    have levels : p.maxDepth - p.depth = d := room
    exact ⟨d - 1, by omega⟩
  unfold Parsing.mapping
  refine reads_next fun first q taken => ?_
  split
  · next kind =>
    refine reads_leave (taken.passes (by rw [kind]; decide)) fun q' passed => ?_
    exact reads_pure passed fun l left => .empty left kind
  · refine reads_unread taken fun q' passed => ?_
    have room' : q'.room = d := by
      have inside : Parser.room { p with depth := p.depth + 1 } = d := by
        have levels : p.maxDepth - p.depth = d + 1 := room
        simp only [Parser.room]
        omega
      exact passed.room.trans inside
    intro readable
    have entries := (ih d).entries q' room' (passed.readable readable)
    refine entries.bind ?_
    rintro es q'' ⟨_, ⟨inner, r, rfl, right, entries⟩, passed'⟩
    refine reads_leave (passed.trans passed') (fun q₃ closed => ?_) readable
    exact reads_pure closed fun l left => .entries left entries right

theorem Sound.entries_succ (ih : Sound n d) (p : Parser) (room : p.room = d) :
    Reads p p (Parsing.entries (n + 1)) fun ls es => ∃ inner r, ls = inner ++ [r] ∧
      r.kind = .rightBrace ∧
        Grammar.Separated .comma (Grammar.Entry (Grammar.Chain d)) inner es := by
  unfold Parsing.entries
  refine reads_next fun name q taken => ?_
  split
  · next isName =>
    have inner : name.kind ≠ .finish := by
      intro last
      rw [last] at isName
      cases isName
    refine .after taken inner (reads_next fun colon q' taken' => ?_)
    split
    · next kind =>
      have room' : q'.room = d := taken'.depth.room.trans (taken.depth.room.trans room)
      refine .after taken' (by rw [kind]; decide) ((ih.chain q' room').bind ?_)
      intro value q'' ls chain passed
      refine .since passed (reads_next fun t q₃ taken'' => ?_)
      have entry : Grammar.Entry (Grammar.Chain d) (name.lexeme :: colon.lexeme :: ls)
          (name.text, value) := .intro isName kind chain
      split
      · next between =>
        have room'' : q₃.room = d := taken''.depth.room.trans (passed.room.trans room')
        refine .after taken'' (by rw [between]; decide) ((ih.entries q₃ room'').bind ?_)
        rintro es q₄ _ ⟨inner, r, rfl, right, more⟩ passed'
        refine reads_pure passed' ⟨name.lexeme :: colon.lexeme :: (ls ++ t.lexeme :: inner), r,
          by simp, right, ?_⟩
        exact .cons entry between more
      · next right =>
        refine reads_pure (taken''.passes (by rw [right]; decide))
          ⟨name.lexeme :: colon.lexeme :: ls, t.lexeme, rfl, right, ?_⟩
        simpa using Grammar.Separated.intro entry .nil
      · exact reads_refuse
    · exact reads_refuse
  · exact reads_refuse

end Steps

/-- Each production reads the phrases of its line in the grammar. -/
theorem sound_all (n d : Nat) : Sound n d := by
  induction n generalizing d with
  | zero => constructor <;> intros <;> exact reads_cutOff
  | succ n ih =>
    exact {
      chain := (ih d).chain_succ
      stages := (ih d).stages_succ
      sum := (ih d).sum_succ
      summands := (ih d).summands_succ
      product := (ih d).product_succ
      factors := (ih d).factors_succ
      operand := (ih d).operand_succ
      mapping := Sound.mapping_succ ih
      entries := (ih d).entries_succ }

/-- The end of the text comes right after the chains. -/
theorem chains_meets (n d : Nat) (p : Parser) (room : p.room = d) (readable : p.Readable) :
    Meets (chains n) p
      (fun fs _ => ∃ ls, Grammar.Trailing .comma (Grammar.Chain d) ls fs ∧ p.view = (ls, none))
      ParseError.NotOfNumber := by
  induction n generalizing p with
  | zero => exact meets_cutOff
  | succ n ih =>
    unfold chains
    refine (next_meets p).imp (fun _ _ taken => taken) ?_ |>.bind fun t q taken => ?_
    · rintro e ⟨fault, rfl, _⟩
      trivial
    split
    · next kind =>
      have passed : p.Passes [t.lexeme] q := taken.passes (by rw [kind]; decide)
      have room' := passed.room.trans room
      refine ((sound_all n d).chain q room' (passed.readable readable)).bind ?_
      rintro f q' ⟨ls, chain, passed'⟩
      have readable' := passed'.readable (passed.readable readable)
      refine (ih q' (passed'.room.trans room') readable').bind ?_
      rintro fs q'' ⟨ls', more, view⟩
      refine meets_pure ⟨t.lexeme :: (ls ++ ls'), .cons kind chain more, ?_⟩
      rw [(passed.trans passed').view, view, List.append_assoc]
      rfl
    · next last => exact meets_pure ⟨[], .nil, taken.view_of_finish last⟩
    · exact refuse_meets

/-- A program that is given stands, up to the end of the text, for what was still to come. -/
theorem program_meets (n : Nat) (p : Parser) (readable : p.Readable) :
    Meets (program n) p
      (fun fs _ => p.view.2 = none ∧
        Grammar.Separated .comma (Grammar.Chain p.room) p.view.1 (fs.1 :: fs.2))
      ParseError.NotOfNumber := by
  unfold program
  refine ((sound_all n p.room).chain p rfl readable).bind ?_
  rintro first q ⟨ls, chain, passed⟩
  refine (chains_meets n p.room q passed.room (passed.readable readable)).bind ?_
  rintro rest q' ⟨ls', more, view⟩
  have whole : p.view = (ls ++ ls', none) := by
    rw [passed.view, view]
  rw [whole]
  exact meets_pure ⟨rfl, .intro chain more⟩

end Parsing

end TreeQuery
