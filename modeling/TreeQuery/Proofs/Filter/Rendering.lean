import TreeQuery.Proofs.Filter.Spelled
import TreeQuery.Proofs.Filter.Words
import TreeQuery.Proofs.Grammar.Basic

/-!
# Printing what was read

A tree that was read from lexemes is printed in pieces, and its pieces may be put in the place of
the lexemes. They need not be the same: names get quotes, numbers are written anew, a stretch
without a start gets one of zero, and one dot stands for many. But they are spelled, they stand for
the same tree as long as no literal is infinite, and no name or text is lost.

The grammar says how phrases are put together, and for each of its lines a lemma says that pieces
may be put together in the same way. So there is one induction, over derivations, for all that is
said about printing.

## Main definitions

* `Renders` — pieces that may be put in the place of lexemes
* `Renders.Separates` — pieces that stand for a separator

## Main statements

* `Renders.append` — phrases one after the other
* `Grammar.Program.renders` — the pieces of a program
-/

namespace TreeQuery

open Piece

/-- The pieces may be put in the place of the lexemes, where something is said of the lexemes. -/
structure Renders (ps : List Piece) (ls : List Lexeme) (Stands : List Lexeme → Prop) : Prop where
  /-- No name and no text is lost. -/
  words : ls.countP Lexeme.isWord ≤ Piece.words ps
  /-- No literal is NaN. -/
  numbers : ∀ x, .literal x ∈ ps → x.isNaN = false
  /-- Clean lexemes have pieces that are spelled. -/
  spelled : (∀ l ∈ ls, l.Clean) → Spelled ps
  /-- What is said of the lexemes can be said of those of the pieces, if no literal is infinite. -/
  stands : (∀ x, .literal x ∈ ps → x.isInf = false) → Stands (lexemesOf ps)

namespace Renders

variable {ps ps' : List Piece} {l : Lexeme} {ls ls' : List Lexeme}
variable {S S' S'' : List Lexeme → Prop}

theorem weaken (h : Renders ps ls S) (weaker : ∀ ms, S ms → S' ms) : Renders ps ls S' :=
  ⟨h.words, h.numbers, h.spelled, fun finite => weaker _ (h.stands finite)⟩

/-- Pieces without names, texts and literals. -/
theorem plain (noWords : ls.countP Lexeme.isWord = 0) (noLiterals : ps.filterMap literal? = [])
    (spelled : Spelled ps) (stands : S (lexemesOf ps)) : Renders ps ls S where
  words := noWords ▸ Nat.zero_le _
  numbers x mem := by
    have listed : x ∈ ps.filterMap literal? := List.mem_filterMap.mpr ⟨_, mem, rfl⟩
    rw [noLiterals] at listed
    cases listed
  spelled _ := spelled
  stands _ := stands

theorem nil : Renders [] [] (· = []) :=
  .plain rfl rfl spelled_nil rfl

/-- One after the other. -/
theorem append (h : Renders ps ls S) (h' : Renders ps' ls' S') (breaks : Breaking ps')
    (both : ∀ ms ms', S ms → S' ms' → S'' (ms ++ ms')) : Renders (ps ++ ps') (ls ++ ls') S'' where
  words := by
    have first := h.words
    have second := h'.words
    rw [List.countP_append, words_append]
    omega
  numbers x mem := by
    rcases List.mem_append.mp mem with mem | mem
    · exact h.numbers x mem
    · exact h'.numbers x mem
  spelled clean := by
    rw [List.forall_mem_append] at clean
    exact (h.spelled clean.1).append (h'.spelled clean.2) breaks
  stands finite := by
    rw [lexemesOf_append]
    exact both _ _ (h.stands fun x mem => finite x (List.mem_append_left _ mem))
      (h'.stands fun x mem => finite x (List.mem_append_right _ mem))

/-- A blank changes nothing. -/
theorem blank (h : Renders ps ls S) : Renders (.blank :: ps) ls S where
  words := by
    rw [words_cons]
    exact h.words
  numbers x mem := by
    rcases List.mem_cons.mp mem with same | mem
    · cases same
    · exact h.numbers x mem
  spelled clean := (h.spelled clean).blank
  stands finite := h.stands fun x mem => finite x (List.mem_cons_of_mem _ mem)

/-- A lexeme that is neither name nor text may be left out. -/
theorem skip (h : Renders ps ls S) (noWord : l.isWord = false) : Renders ps (l :: ls) S where
  words := by
    rw [List.countP_cons_of_neg (by simp [noWord])]
    exact h.words
  numbers := h.numbers
  spelled clean := h.spelled fun l mem => clean l (List.mem_cons_of_mem _ mem)
  stands := h.stands

/-- A punctuation character. -/
theorem mark (h : Renders ps ls S) {c : Char} {kind : TokenKind}
    {isMark : TokenKind.ofChar? c = some kind} (same : l.kind = kind)
    (both : ∀ m ms, m.kind = kind → S ms → S' (m :: ms)) :
    Renders (.mark c kind isMark :: ps) (l :: ls) S' where
  words := by
    have noWord : l.isWord = false := by
      have other : Lexeme.isWord ⟨kind, l.text⟩ = false := isWord_of_ofChar? isMark
      rw [← same] at other
      exact other
    rw [List.countP_cons_of_neg (by simp [noWord]), words_cons]
    exact h.words
  numbers x mem := by
    rcases List.mem_cons.mp mem with same | mem
    · cases same
    · exact h.numbers x mem
  spelled clean := by
    rw [List.forall_mem_cons] at clean
    exact (h.spelled clean.2).mark isMark
  stands finite := both _ _ rfl (h.stands fun x mem => finite x (List.mem_cons_of_mem _ mem))

theorem isName_lexemes_name (s : String) :
    ∃ m : Lexeme, (Piece.name s).lexemes = [m] ∧ m.kind.isName ∧ m.text = s := by
  unfold Piece.name
  split
  · exact ⟨_, rfl, rfl, rfl⟩
  · exact ⟨_, rfl, rfl, rfl⟩

/-- A name, whichever way it is written. -/
theorem name (h : Renders ps ls S) (breaks : Breaking ps)
    (both : ∀ m ms, m.kind.isName → m.text = l.text → S ms → S' (m :: ms)) :
    Renders (.name l.text :: ps) (l :: ls) S' where
  words := by
    have isWord : (Piece.name l.text).isWord = true := by
      unfold Piece.name
      split <;> rfl
    have rest := h.words
    -- A number may be a name too; then the name that is printed is one more.
    rw [words_cons, isWord, List.countP_cons]
    split <;> simp <;> omega
  numbers x mem := by
    rcases List.mem_cons.mp mem with same | mem
    · unfold Piece.name at same
      split at same <;> cases same
    · exact h.numbers x mem
  spelled clean := by
    rw [List.forall_mem_cons] at clean
    exact (spelled_name clean.1).cons (h.spelled clean.2) breaks
  stands finite := by
    obtain ⟨m, lexemes, isName, text⟩ := isName_lexemes_name l.text
    rw [lexemesOf_cons, lexemes]
    exact both m _ isName text (h.stands fun x mem => finite x (List.mem_cons_of_mem _ mem))

/-! ### Separators -/

/-- The pieces stand for a separator of that kind. -/
structure Separates (between : List Piece) (kind : TokenKind) : Prop where
  breaks : ∀ ps, Breaking (between ++ ps)
  leads : ∀ {ps ls S S' l}, Renders ps ls S → l.kind = kind →
    (∀ m ms, m.kind = kind → S ms → S' (m :: ms)) → Renders (between ++ ps) (l :: ls) S'

theorem separates_comma : Separates comma .comma where
  breaks _ := breaking_mark _ (by decide)
  leads h same both := h.blank.mark same both

theorem separates_bar : Separates bar .pipe where
  breaks _ := breaking_blank
  leads h same both := (h.blank.mark same both).blank

theorem separates_star : Separates Operator.multiply.between .star where
  breaks _ := breaking_blank
  leads h same both := (h.blank.mark same both).blank

theorem separates_plus : Separates Operator.add.between .plus where
  breaks _ := breaking_blank
  leads h same both := (h.blank.mark same both).blank

end Renders

namespace Grammar

open Renders

variable {α : Type} {between : List Piece} {kind : TokenKind} {ls : List Lexeme}
variable {Phrase : List Lexeme → α → Prop} {pieces : α → List Piece} {as : List α}

/-! ### Phrases with separators -/

theorem Trailing.breaking (separates : Separates between kind) (as : List α) :
    Breaking (as.flatMap fun a => between ++ pieces a) := by
  cases as with
  | nil => exact breaking_nil
  | cons a as =>
    rw [List.flatMap_cons, List.append_assoc]
    exact separates.breaks _

theorem Trailing.renders (separates : Separates between kind)
    (each : ∀ ls a, Phrase ls a → Renders (pieces a) ls (Phrase · a))
    (h : Trailing kind Phrase ls as) :
    Renders (as.flatMap fun a => between ++ pieces a) ls (Trailing kind Phrase · as) := by
  induction h with
  | nil => exact Renders.nil.weaken fun ms none => none ▸ .nil
  | @cons l ls ls' a as same phrase _ ih =>
    have first : Renders (between ++ pieces a) (l :: ls) fun ms =>
        ∃ m ms', m.kind = kind ∧ Phrase ms' a ∧ ms = m :: ms' :=
      separates.leads (each ls a phrase) same fun m ms same phrase => ⟨m, ms, same, phrase, rfl⟩
    refine first.append ih (Trailing.breaking separates as) ?_
    rintro ms ms' ⟨m, ms, same, phrase, rfl⟩ rest
    exact .cons same phrase rest

theorem Separated.renders (separates : Separates between kind)
    (each : ∀ ls a, Phrase ls a → Renders (pieces a) ls (Phrase · a))
    (h : Separated kind Phrase ls as) :
    Renders (joined between (as.map pieces)) ls (Separated kind Phrase · as) := by
  cases h with
  | @intro ls ls' a as first rest =>
    rw [List.map_cons, joined, List.flatMap_map]
    exact (each ls a first).append (Trailing.renders separates each rest)
      (Trailing.breaking separates as) fun ms ms' first rest => .intro first rest

variable {Join : List Filter → Filter → Prop} {Phrase' : List Lexeme → Filter → Prop} {f : Filter}

theorem Joined.renders (separates : Separates between kind)
    (same : ∀ {fs f}, Join fs f → f.pieces = joined between (fs.map Filter.pieces))
    (each : ∀ ls f, Phrase' ls f → Renders f.pieces ls (Phrase' · f))
    (h : Joined kind Join Phrase' ls f) : Renders f.pieces ls (Joined kind Join Phrase' · f) := by
  obtain ⟨fs, phrases, join⟩ := h
  rw [same join]
  exact (Separated.renders separates each phrases).weaken fun ms phrases => ⟨fs, phrases, join⟩

theorem piecesOfAll_eq (fs : List Filter) : Filter.piecesOfAll fs = fs.map Filter.pieces := by
  induction fs with
  | nil => rfl
  | cons f fs ih => rw [Filter.piecesOfAll, ih, List.map_cons]

/-- The pieces of a named tree. -/
def entryPieces (e : String × Filter) : List Piece :=
  .name e.1 :: .colon :: .blank :: e.2.pieces

theorem piecesOfEntries_eq (es : List (String × Filter)) :
    Filter.piecesOfEntries es = es.map entryPieces := by
  induction es with
  | nil => rfl
  | cons e es ih =>
    obtain ⟨name, f⟩ := e
    rw [Filter.piecesOfEntries, ih, List.map_cons]
    rfl

theorem LeftNested.pieces_eq {op : Operator} {fs : List Filter} {f : Filter}
    (h : LeftNested op fs f) : f.pieces = joined op.between (fs.map Filter.pieces) := by
  cases h with
  | intro first rest =>
    rw [List.map_cons, joined, List.flatMap_map]
    induction rest generalizing first with
    | nil => simp
    | cons g rest ih => simp [ih, Filter.pieces]

theorem Collapsed.pieces_eq {form : List Filter → Filter} {fs : List Filter} {f : Filter}
    (same : ∀ fs, (form fs).pieces = joined between (Filter.piecesOfAll fs))
    (h : Collapsed form fs f) : f.pieces = joined between (fs.map Filter.pieces) := by
  cases h with
  | one f => exact (joined_singleton between _).symm
  | several f g fs => rw [same, piecesOfAll_eq]

/-! ### Selectors -/

theorem isIndex_toString {i : Nat} (bound : i < 2 ^ 64) : IsIndex ⟨.number, toString i⟩ i := by
  have digits : (toString i).toList = Nat.toDigits 10 i := by
    rw [Nat.toString_eq_ofList_toDigits, String.toList_ofList]
  constructor
  · rfl
  · rw [digits]
    exact Nat.toDigits_ne_nil
  · rw [digits]
    exact fun c mem => Decimal.isDigit_of_mem_toDigits mem
  · rw [digits]
    exact Nat.ofDigitChars_ten_toDigits
  · exact bound

theorem isWord_of_number {l : Lexeme} (number : l.kind = .number) : l.isWord = false := by
  rw [Lexeme.isWord, number]

theorem isWord_of_colon {l : Lexeme} (colon : l.kind = .colon) : l.isWord = false := by
  rw [Lexeme.isWord, colon]

theorem Range.noWords {step : Selector} (h : Range ls step) : ls.countP Lexeme.isWord = 0 := by
  cases h with
  | empty => rfl
  | index index => simp [isWord_of_number index.kind]
  | colon colon => simp [isWord_of_colon colon]
  | since start colon => simp [isWord_of_number start.kind, isWord_of_colon colon]
  | upTo colon stop => simp [isWord_of_number stop.kind, isWord_of_colon colon]
  | between start colon stop =>
    simp [isWord_of_number start.kind, isWord_of_number stop.kind, isWord_of_colon colon]

/-- `'[' range ']'` -/
def Bracketed (step : Selector) (ls : List Lexeme) : Prop :=
  ∃ l ls' r, l.kind = .leftBracket ∧ Range ls' step ∧ r.kind = .rightBracket ∧
    ls = l :: (ls' ++ [r])

/-- Positions of a stretch are printed both, where there are two. -/
theorem renders_between (noWords : ls.countP Lexeme.isWord = 0) {start : Nat} {stop : Option Nat}
    (bound : start < 2 ^ 64) (bound' : ∀ j ∈ stop, j < 2 ^ 64) :
    Renders (Selector.slice ⟨start, stop, false⟩).pieces ls
      (Bracketed (.slice ⟨start, stop, false⟩)) := by
  have first := spelled_index start
  cases stop with
  | none =>
    refine .plain noWords rfl (Spelled.mark (first.cons (.mark (.mark spelled_nil _) _) ?_) _) ?_
    · exact breaking_mark _ (by decide)
    · exact ⟨_, [_, _], _, rfl, .since (isIndex_toString bound) rfl, rfl, rfl⟩
  | some stop =>
    have second := spelled_index stop
    refine .plain noWords rfl
      (Spelled.mark (first.cons (.mark (second.cons (.mark spelled_nil _) ?_) _) ?_) _) ?_
    · exact breaking_mark _ (by decide)
    · exact breaking_mark _ (by decide)
    · exact ⟨_, [_, _, _], _, rfl,
        .between (isIndex_toString bound) rfl (isIndex_toString (bound' stop rfl)), rfl, rfl⟩

theorem Range.renders {step : Selector} {l r : Lexeme} (left : l.kind = .leftBracket)
    (right : r.kind = .rightBracket) (h : Range ls step) :
    Renders step.pieces (l :: (ls ++ [r])) (Bracketed step) := by
  have noWords : (l :: (ls ++ [r])).countP Lexeme.isWord = 0 := by
    have noWord : l.isWord = false := by rw [Lexeme.isWord, left]
    have noWord' : r.isWord = false := by rw [Lexeme.isWord, right]
    rw [List.countP_cons_of_neg (by simp [noWord]), List.countP_append, h.noWords]
    simp [noWord']
  have everything : Renders (Selector.slice ⟨0, none, true⟩).pieces (l :: (ls ++ [r]))
      (Bracketed (.slice ⟨0, none, true⟩)) := by
    refine .plain noWords rfl (.mark (.mark (.mark spelled_nil _) _) _) ?_
    exact ⟨_, [_], _, rfl, .colon rfl, rfl, rfl⟩
  cases h with
  | empty => exact everything
  | colon colon => exact everything
  | @index l i index =>
    refine .plain noWords rfl (.mark ((spelled_index i).cons (.mark spelled_nil _) ?_) _) ?_
    · exact breaking_mark _ (by decide)
    · exact ⟨_, [_], _, rfl, .index (isIndex_toString index.bound), rfl, rfl⟩
  | since start colon => exact renders_between noWords start.bound (by simp)
  | upTo colon stop =>
    exact renders_between noWords (by decide) fun j same => Option.some.inj same ▸ stop.bound
  | between start colon stop =>
    exact renders_between noWords start.bound fun j same => Option.some.inj same ▸ stop.bound

theorem Range.breaking {step : Selector} (h : Range ls step) (ps : List Piece) :
    Breaking (step.pieces ++ ps) := by
  have opens (rest : List Piece) : Breaking (.leftBracket :: rest) :=
    breaking_mark _ (by decide)
  cases h <;> exact opens _

theorem Segments.breaking {steps : List Selector} (h : Segments ls steps) :
    Breaking (steps.flatMap Selector.pieces) := by
  induction h with
  | nil => exact breaking_nil
  | dot _ _ ih => exact ih
  | key _ _ _ _ => exact breaking_key _
  | bracket _ range _ _ _ => exact range.breaking _

theorem Segments.renders {steps : List Selector} (h : Segments ls steps) :
    Renders (steps.flatMap Selector.pieces) ls (Segments · steps) := by
  induction h with
  | nil => exact Renders.nil.weaken fun ms none => none ▸ .nil
  | @dot d ls steps dot _ ih => exact ih.skip (by rw [Lexeme.isWord, dot])
  | @key d name ls steps dot isName rest ih =>
    have named : Renders (.name name.text :: steps.flatMap Selector.pieces) (name :: ls) fun ms =>
        ∃ m ms', m.kind.isName ∧ m.text = name.text ∧ Segments ms' steps ∧ ms = m :: ms' :=
      ih.name rest.breaking fun m ms isName same rest => ⟨m, ms, isName, same, rest, rfl⟩
    refine named.mark dot ?_
    rintro m _ dot ⟨m', ms, isName, same, rest, rfl⟩
    exact same ▸ .key dot isName rest
  | @bracket l r ls ls' step steps left range right rest ih =>
    have shape : l :: (ls ++ r :: ls') = l :: (ls ++ [r]) ++ ls' := by simp
    rw [shape]
    refine (range.renders left right).append ih rest.breaking ?_
    rintro _ ms' ⟨l, ls, r, left, range, right, rfl⟩ rest
    have bracket := Segments.bracket left range right rest
    simpa using bracket

theorem Selectors.renders {f : Filter} (h : Selectors ls f) :
    Renders f.pieces ls (Selectors · f) := by
  obtain ⟨nonempty, steps, segments, path⟩ := h
  have printed := segments.renders
  have nonempty' (ms : List Lexeme) (s : Selector) (steps : List Selector)
      (h : Segments ms (s :: steps)) : ms ≠ [] := by
    rintro rfl
    cases h
  cases path with
  | none =>
    -- However many dots there were, one is printed.
    have noWords : ls.countP Lexeme.isWord = 0 := Nat.le_zero.mp printed.words
    have dot : Segments [⟨.dot, "."⟩] [] := .dot rfl .nil
    exact .plain noWords rfl (.mark spelled_nil _) ⟨List.cons_ne_nil _ _, [], dot, .none⟩
  | one s =>
    rw [List.flatMap_cons, List.flatMap_nil, List.append_nil] at printed
    exact printed.weaken fun ms rest => ⟨nonempty' ms s [] rest, [s], rest, .one s⟩
  | several s t steps =>
    exact printed.weaken fun ms rest => ⟨nonempty' ms s _ rest, _, rest, .several s t steps⟩

/-! ### Literals -/

theorem IsNumber.isNaN {l : Lexeme} {x : Float} (h : IsNumber l x) : x.isNaN = false := by
  obtain ⟨d, -, rfl⟩ := Option.map_eq_some_iff.mp h.value
  exact d.isNaN_toFloat

/-- A finite literal is printed as a number, with a sign where it has one. -/
theorem literal_lexemesOfNumber {x : Float} (number : x.isNaN = false) (finite : x.isInf = false) :
    Literal (lexemesOfNumber x) (.number x) := by
  unfold lexemesOfNumber
  cases value : Dyadic.ofFloat? x with
  | none =>
    have infinite := Dyadic.isInf_of_ofFloat?_eq_none value number
    rw [finite] at infinite
    cases infinite
  | some d =>
    obtain ⟨d', denotes, read⟩ := Filter.layout.exists_denotes_writeDecimal rfl (fun _ => rfl) value
    have magnitude : IsNumber ⟨.number, Filter.layout.writeDecimal
        (.shortest Filter.layout.tie x.abs d)⟩ x.abs := by
      refine ⟨rfl, ?_⟩
      rw [denotes.ofNumeral?_eq, Option.map_some, read]
    have sign := Dyadic.eq_of_sign value
    cases negative : d.negative with
    | true =>
      rw [negative, if_pos rfl] at sign
      have same : Filter.number x = .number (-x.abs) := congrArg Filter.number sign
      simp only [negative, if_true, same]
      exact .negative rfl magnitude
    | false =>
      rw [negative, if_neg (by decide)] at sign
      have same : Filter.number x = .number x.abs := congrArg Filter.number sign
      simp only [negative, if_false, Bool.false_eq_true, same]
      exact .number magnitude

theorem renders_number {x : Float} (noWords : ls.countP Lexeme.isWord = 0)
    (number : x.isNaN = false) : Renders [.literal x] ls (Literal · (.number x)) where
  words := noWords ▸ Nat.zero_le _
  numbers y mem := by
    cases List.mem_singleton.mp mem
    exact number
  spelled _ := spelled_literal number
  stands finite := by
    have literal := literal_lexemesOfNumber number (finite x (List.mem_singleton.mpr rfl))
    rw [lexemesOf_cons, lexemesOf_nil, List.append_nil]
    exact literal

theorem renders_text (l : Lexeme) : Renders [.quoted l.text] [l] (Literal · (.text l.text)) where
  words := List.countP_le_length
  numbers x mem := by
    cases List.mem_singleton.mp mem
  spelled clean := spelled_nil.quoted (clean l (List.mem_singleton.mpr rfl))
  stands _ := .quoted rfl

theorem Literal.renders {f : Filter} (h : Literal ls f) : Renders f.pieces ls (Literal · f) := by
  cases h with
  | number number =>
    exact renders_number (by simp [isWord_of_number number.kind]) number.isNaN
  | @negative sign l x minus number =>
    have noWord : sign.isWord = false := by rw [Lexeme.isWord, minus]
    refine renders_number (by simp [noWord, isWord_of_number number.kind]) ?_
    rw [Binary64.isNaN_neg]
    exact number.isNaN
  | @quoted l kind => exact renders_text l
  | @length l kind text =>
    exact ⟨List.countP_le_length, fun x mem => absurd (List.mem_singleton.mp mem) (by simp),
      fun _ => spelled_length, fun _ => .length rfl rfl⟩
  | @text l kind text => exact renders_text l

/-! ### Filters -/

section

variable {Mapping : List Lexeme → Filter → Prop} {f : Filter}

theorem Operand.renders (each : ∀ ls f, Mapping ls f → Renders f.pieces ls (Mapping · f))
    (h : Operand Mapping ls f) : Renders f.pieces ls (Operand Mapping · f) := by
  cases h with
  | selectors selectors => exact selectors.renders.weaken fun ms => .selectors
  | literal literal => exact literal.renders.weaken fun ms => .literal
  | mapping mapping => exact (each _ _ mapping).weaken fun ms => .mapping

theorem Product.renders (each : ∀ ls f, Mapping ls f → Renders f.pieces ls (Mapping · f))
    (h : Product Mapping ls f) : Renders f.pieces ls (Product Mapping · f) :=
  Joined.renders separates_star LeftNested.pieces_eq (fun _ _ => Operand.renders each) h

theorem Sum.renders (each : ∀ ls f, Mapping ls f → Renders f.pieces ls (Mapping · f))
    (h : Sum Mapping ls f) : Renders f.pieces ls (Sum Mapping · f) :=
  Joined.renders separates_plus LeftNested.pieces_eq (fun _ _ => Product.renders each) h

theorem ChainOver.renders (each : ∀ ls f, Mapping ls f → Renders f.pieces ls (Mapping · f))
    (h : ChainOver Mapping ls f) : Renders f.pieces ls (ChainOver Mapping · f) :=
  Joined.renders separates_bar (Collapsed.pieces_eq fun _ => rfl) (fun _ _ => Sum.renders each) h

end

section

variable {Chain : List Lexeme → Filter → Prop}

theorem Entry.renders {e : String × Filter}
    (each : ∀ ls f, Chain ls f → Renders f.pieces ls (Chain · f)) (h : Entry Chain ls e) :
    Renders (entryPieces e) ls (Entry Chain · e) := by
  cases h with
  | @intro name c ls f isName colon value =>
    have behind : Renders (.colon :: .blank :: f.pieces) (c :: ls) fun ms =>
        ∃ m ms', m.kind = .colon ∧ Chain ms' f ∧ ms = m :: ms' :=
      (each ls f value).blank.mark colon fun m ms colon value => ⟨m, ms, colon, value, rfl⟩
    refine behind.name (breaking_mark _ (by decide)) ?_
    rintro m _ isName same ⟨m', ms, colon, value, rfl⟩
    exact same ▸ .intro isName colon value

theorem Mapping.renders {f : Filter} (each : ∀ ls f, Chain ls f → Renders f.pieces ls (Chain · f))
    (h : Mapping Chain ls f) : Renders f.pieces ls (Mapping Chain · f) := by
  have closing (r : Lexeme) (right : r.kind = .rightBrace) : Renders [.rightBrace] [r] fun ms =>
      ∃ m, m.kind = .rightBrace ∧ ms = [m] :=
    Renders.nil.mark right fun m ms right none => ⟨m, right, none ▸ rfl⟩
  cases h with
  | @empty l r left right =>
    refine (closing r right).mark left ?_
    rintro m _ left ⟨m', right, rfl⟩
    exact .empty left right
  | @entries l r ls es left entries right =>
    have inner : Renders (joined comma (es.map entryPieces) ++ [.rightBrace]) (ls ++ [r]) fun ms =>
        ∃ ls' m, Separated .comma (Entry Chain) ls' es ∧ m.kind = .rightBrace ∧
          ms = ls' ++ [m] := by
      have entry (ls : List Lexeme) (e : String × Filter) (h : Entry Chain ls e) :
          Renders (entryPieces e) ls (Entry Chain · e) := Entry.renders each h
      have listed := entries.renders separates_comma entry
      have breaks : Breaking [.rightBrace] := breaking_mark _ (by decide)
      refine listed.append (closing r right) breaks ?_
      rintro ms _ entries ⟨m, right, rfl⟩
      exact ⟨ms, m, entries, right, rfl⟩
    rw [Filter.pieces, piecesOfEntries_eq]
    refine inner.mark left ?_
    rintro m _ left ⟨ls, m', entries, right, rfl⟩
    exact .entries left entries right

end

variable {depth : Nat}

theorem MappingWithin.renders (h : MappingWithin depth ls f) :
    Renders f.pieces ls (MappingWithin depth · f) := by
  induction depth generalizing ls f with
  | zero => exact h.elim
  | succ depth ih => exact Mapping.renders (fun _ _ => ChainOver.renders fun _ _ => ih) h

/-- The pieces of a chain may be put in the place of its lexemes. -/
theorem Chain.renders (h : Chain depth ls f) : Renders f.pieces ls (Chain depth · f) :=
  ChainOver.renders (fun _ _ => MappingWithin.renders) h

/-- The pieces of a program may be put in the place of its lexemes. -/
theorem Program.renders (h : Program depth ls f) : Renders f.pieces ls (Program depth · f) :=
  Joined.renders separates_comma (Collapsed.pieces_eq fun _ => rfl) (fun _ _ => Chain.renders) h

end Grammar

end TreeQuery
