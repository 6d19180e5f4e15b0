import TreeQuery.Proofs.Filter.Nesting
import TreeQuery.Proofs.Filter.Normal
import TreeQuery.Proofs.Decimal.Finite

/-!
# Which trees have a text

Parsing gives normal trees, and it gives all of them: each form is written with the lexemes that
the grammar has for it, and blanks between them keep the lexemes apart. Names are written between
quotes. Every finite number has a numeral, and infinity has one as well, since numerals may be as
long as they like.

## Main definitions

* `Written` — lexemes that some text falls into
* `Grammar.Phrased` — what some written phrase stands for

## Main statements

* `Grammar.phrased_of_normal` — every normal tree is written in the line of the grammar for its rank
* `Filter.parse_image` — the trees that parsing gives
-/

namespace TreeQuery

open Spelling

/-! ### Lexemes with a text -/

/-- There is a text that falls into these lexemes. -/
def Written (ls : List Lexeme) : Prop := ∃ text, Spells (seen text) ls

theorem written_nil : Written [] := ⟨"", .nil⟩

/-- With a blank between them, two texts fall into the lexemes of both. -/
theorem Written.append {ls ls' : List Lexeme} (first : Written ls) (rest : Written ls') :
    Written (ls ++ ls') := by
  obtain ⟨text, spells⟩ := first
  obtain ⟨text', spells'⟩ := rest
  have blank : isBlank ' ' := by decide
  refine ⟨text ++ (" " ++ text'), ?_⟩
  rw [seen_append, seen_append]
  exact spells.append (.blank blank spells') (breaks_of_blank blank)

theorem Written.cons {l : Lexeme} {ls : List Lexeme} (first : Written [l]) (rest : Written ls) :
    Written (l :: ls) :=
  first.append rest

theorem written_mark {c : Char} {kind : TokenKind} (isMark : TokenKind.ofChar? c = some kind) :
    Written [⟨kind, String.singleton c⟩] := by
  refine ⟨String.singleton c, ?_⟩
  rw [Piece.seen_singleton isMark]
  exact .punctuation isMark .nil

/-- A row of pieces is written as their texts one after the other. -/
theorem Piece.Spelled.written {ps : List Piece} (spelled : Spelled ps) :
    Written (lexemesOf ps) := by
  refine ⟨String.join (ps.map text), ?_⟩
  rw [seen_join, List.flatMap_map]
  exact spelled

theorem written_quoted {s : String} (quotable : Quotable s) : Written [⟨.quoted, s⟩] :=
  (Piece.spelled_nil.quoted (l := ⟨.quoted, s⟩) quotable).written

theorem written_index (i : Nat) : Written [⟨.number, toString i⟩] :=
  (Piece.spelled_index i).written

namespace Grammar

variable {α : Type} {m : Nat} {f : Filter}

/-- Something written stands for it. -/
def Phrased (Phrase : List Lexeme → α → Prop) (a : α) : Prop := ∃ ls, Written ls ∧ Phrase ls a

theorem Phrased.imp {Phrase Phrase' : List Lexeme → α → Prop} {a : α} (phrased : Phrased Phrase a)
    (weaker : ∀ ls, Phrase ls a → Phrase' ls a) : Phrased Phrase' a := by
  obtain ⟨ls, written, phrase⟩ := phrased
  exact ⟨ls, written, weaker ls phrase⟩

/-! ### Phrases with separators -/

theorem phrased_separated {Phrase : List Lexeme → α → Prop} {separator : TokenKind} {c : Char}
    (isMark : TokenKind.ofChar? c = some separator) {as : List α} (nonempty : as ≠ [])
    (each : ∀ a ∈ as, Phrased Phrase a) : Phrased (Separated separator Phrase) as := by
  induction as with
  | nil => exact absurd rfl nonempty
  | cons a as ih =>
    rw [List.forall_mem_cons] at each
    obtain ⟨⟨ls, written, phrase⟩, each⟩ := each
    cases as with
    | nil => exact ⟨ls ++ [], written.append written_nil, .intro phrase .nil⟩
    | cons b bs =>
      obtain ⟨ls', written', phrases⟩ := ih (List.cons_ne_nil _ _) each
      exact ⟨_, written.append ((written_mark isMark).cons written'), .cons phrase rfl phrases⟩

/-! ### Selectors -/

/-- What stands between brackets. -/
theorem phrased_slice {s : Slice} (normal : (Selector.slice s).Normal) :
    Phrased Range (.slice s) := by
  obtain ⟨start, stop, all⟩ := s
  obtain ⟨startBound, stopBound, whole⟩ := normal
  have colon : Written [⟨.colon, ":"⟩] := written_mark (c := ':') rfl
  cases all with
  | true =>
    obtain ⟨rfl, rfl⟩ := whole rfl
    exact ⟨_, colon, .colon rfl⟩
  | false =>
    have since := (written_index start).cons colon
    cases stop with
    | none => exact ⟨_, since, .since (isIndex_toString startBound) rfl⟩
    | some stop =>
      exact ⟨_, since.append (written_index stop), .between (isIndex_toString startBound) rfl
        (isIndex_toString (stopBound stop rfl))⟩

theorem phrased_segments {steps : List Selector}
    (each : ∀ s ∈ steps, s ≠ .identity ∧ s.Normal) : Phrased Segments steps := by
  induction steps with
  | nil => exact ⟨[], written_nil, .nil⟩
  | cons s steps ih =>
    rw [List.forall_mem_cons] at each
    obtain ⟨⟨noIdentity, normal⟩, each⟩ := each
    obtain ⟨ls, written, segments⟩ := ih each
    have bracket (range : Phrased Range s) : Phrased Segments (s :: steps) := by
      obtain ⟨inner, written', range⟩ := range
      have left : Written [⟨.leftBracket, "["⟩] := written_mark (c := '[') rfl
      have right : Written [⟨.rightBracket, "]"⟩] := written_mark (c := ']') rfl
      exact ⟨_, left.cons (written'.append (right.cons written)), .bracket rfl range rfl segments⟩
    cases s with
    | identity => exact absurd rfl noIdentity
    | key name =>
      have dot : Written [⟨.dot, "."⟩] := written_mark (c := '.') rfl
      exact ⟨_, dot.cons ((written_quoted normal).cons written), .key rfl rfl segments⟩
    | index i => exact bracket ⟨_, written_index i, .index (isIndex_toString normal)⟩
    | slice s => exact bracket (phrased_slice normal)

/-- Steps need at least one lexeme. -/
theorem phrased_selectors {s : Selector} {steps : List Selector}
    (each : ∀ t ∈ s :: steps, t ≠ .identity ∧ t.Normal) (path : Path (s :: steps) f) :
    Phrased Selectors f := by
  obtain ⟨ls, written, segments⟩ := phrased_segments each
  refine ⟨ls, written, ?_, s :: steps, segments, path⟩
  rintro rfl
  cases segments

theorem phrased_select {s : Selector} (normal : s.Normal) : Phrased Selectors (.select s) := by
  by_cases identity : s = .identity
  · subst identity
    exact ⟨_, written_mark (c := '.') rfl, List.cons_ne_nil _ _, [], .dot rfl .nil, .none⟩
  · refine phrased_selectors (fun t mem => ?_) (.one s)
    obtain rfl := List.mem_singleton.mp mem
    exact ⟨identity, normal⟩

/-! ### Numbers -/

/-- A power of ten that is too large for a double. -/
def beyond : Decimal := ⟨1, 309⟩

theorem isInf_beyond : beyond.toFloat.isInf = true := by
  decide +kernel

/-- There are two infinities. -/
theorem eq_or_eq_neg_of_isInf {x y : Float} (infinite : x.isInf = true)
    (infinite' : y.isInf = true) : x = y ∨ x = -y := by
  have exists_sign {x : Float} (infinite : x.isInf = true) :
      ∃ s, Binary64.parts x = .infinity s := by
    have infinite : (Binary64.parts x).isInf = true := infinite
    cases same : Binary64.parts x with
    | infinity s => exact ⟨s, rfl⟩
    | _ => rw [same] at infinite; cases infinite
  obtain ⟨s, same⟩ := exists_sign infinite
  obtain ⟨s', same'⟩ := exists_sign infinite'
  by_cases alike : s = s'
  · exact .inl (Binary64.eq_of_parts_eq (by rw [same, same', alike]))
  · refine .inr (Binary64.eq_of_parts_eq ?_)
    rw [Binary64.parts_neg, same, same']
    cases s <;> cases s' <;> first | rfl | exact absurd rfl alike

theorem phrased_number {x : Float} (number : x.isNaN = false) : Phrased Literal (.number x) := by
  have minus : TokenKind.ofChar? '-' = some .minus := rfl
  by_cases infinite : x.isInf = true
  · -- A numeral that is too long for a double stands for infinity.
    obtain ⟨d, denotes, same⟩ :=
      Decimal.exists_denotes_writePositional Filter.layout rfl beyond
    have isNumber : IsNumber ⟨.number, Filter.layout.writePositional beyond⟩ beyond.toFloat :=
      ⟨rfl, by rw [denotes.ofNumeral?_eq, Option.map_some, same]⟩
    have written : Written [⟨.number, Filter.layout.writePositional beyond⟩] :=
      ⟨_, Piece.spells_numeral denotes⟩
    rcases eq_or_eq_neg_of_isInf infinite isInf_beyond with same | same
    · rw [same]
      exact ⟨_, written, .number isNumber⟩
    · rw [same]
      exact ⟨_, (written_mark minus).cons written, .negative rfl isNumber⟩
  · have written := (Piece.spelled_literal number).written
    rw [Piece.lexemesOf_cons, Piece.lexemesOf_nil, List.append_nil] at written
    exact ⟨_, written, literal_lexemesOfNumber number (Bool.eq_false_iff.mpr infinite)⟩

/-! ### Filters -/

/-- A phrase of one line of the grammar is one of the next line. -/
theorem Joined.of_phrase {separator : TokenKind} {Join : List Filter → Filter → Prop}
    {Phrase : List Lexeme → Filter → Prop} {ls : List Lexeme} (join : Join [f] f)
    (phrase : Phrase ls f) : Joined separator Join Phrase ls f := by
  have alone : Separated separator Phrase (ls ++ []) [f] := .intro phrase .nil
  rw [List.append_nil] at alone
  exact ⟨[f], alone, join⟩

theorem RankedPhrase.mono {rank rank' : Nat} {ls : List Lexeme} (phrase : RankedPhrase m rank ls f)
    (le : rank ≤ rank') : RankedPhrase m rank' ls f := by
  induction le with
  | refl => exact phrase
  | @step rank' _ ih =>
    match rank', ih with
    | 0, operand => exact Joined.of_phrase (.intro f []) operand
    | 1, product => exact Joined.of_phrase (.intro f []) product
    | 2, sum => exact Joined.of_phrase (.one f) sum
    | 3, chain => exact Joined.of_phrase (.one f) chain
    | _ + 4, program => exact program

/-- Another operand may stand on the right. -/
theorem LeftNested.snoc {op : Operator} {fs : List Filter} {left : Filter}
    (nested : LeftNested op fs left) (right : Filter) :
    LeftNested op (fs ++ [right]) (.binary op left right) := by
  obtain ⟨first, rest⟩ := nested
  have nested' : LeftNested op (first :: (rest ++ [right]))
      ((rest ++ [right]).foldl (.binary op) first) := .intro first (rest ++ [right])
  rwa [List.foldl_concat] at nested'

theorem phrased_joined_leftNested {Phrase : List Lexeme → Filter → Prop} {separator : TokenKind}
    {c : Char} {op : Operator} {left right : Filter}
    (isMark : TokenKind.ofChar? c = some separator)
    (phrased : Phrased (Joined separator (LeftNested op) Phrase) left)
    (phrased' : Phrased Phrase right) :
    Phrased (Joined separator (LeftNested op) Phrase) (.binary op left right) := by
  obtain ⟨ls, written, fs, phrases, nested⟩ := phrased
  obtain ⟨ls', written', phrase⟩ := phrased'
  have last : Separated separator Phrase (ls' ++ []) [right] := .intro phrase .nil
  exact ⟨_, written.append ((written_mark isMark).cons (written'.append written_nil)),
    fs ++ [right], phrases.append rfl last, nested.snoc right⟩

theorem phrased_joined_collapsed {Phrase : List Lexeme → Filter → Prop} {separator : TokenKind}
    {c : Char} {form : List Filter → Filter} {fs : List Filter}
    (isMark : TokenKind.ofChar? c = some separator) (several : 2 ≤ fs.length)
    (each : ∀ f ∈ fs, Phrased Phrase f) :
    Phrased (Joined separator (Collapsed form) Phrase) (form fs) := by
  have nonempty : fs ≠ [] := by
    rintro rfl
    exact absurd several (by decide)
  obtain ⟨ls, written, phrases⟩ := phrased_separated isMark nonempty each
  exact ⟨ls, written, fs, phrases, collapsed_of_two_le several⟩

theorem phrased_mapping {Chain : List Lexeme → Filter → Prop} {entries : List (String × Filter)}
    (names : ∀ e ∈ entries, Quotable e.1) (each : ∀ e ∈ entries, Phrased Chain e.2) :
    Phrased (Mapping Chain) (.mapping entries) := by
  have left : Written [⟨.leftBrace, "\x7b"⟩] := written_mark (c := '\x7b') rfl
  have right : Written [⟨.rightBrace, "\x7d"⟩] := written_mark (c := '\x7d') rfl
  have colon : Written [⟨.colon, ":"⟩] := written_mark (c := ':') rfl
  by_cases empty : entries = []
  · subst empty
    exact ⟨_, left.cons right, .empty rfl rfl⟩
  · have entry (e : String × Filter) (mem : e ∈ entries) : Phrased (Entry Chain) e := by
      obtain ⟨ls, written, value⟩ := each e mem
      have name := written_quoted (names e mem)
      have entry : Entry Chain (⟨.quoted, e.1⟩ :: ⟨.colon, ":"⟩ :: ls) e := .intro rfl rfl value
      exact ⟨_, name.cons (colon.cons written), entry⟩
    have comma : TokenKind.ofChar? ',' = some .comma := rfl
    obtain ⟨ls, written, listed⟩ := phrased_separated comma empty entry
    exact ⟨_, left.cons (written.append right), .entries rfl listed rfl⟩

/-- Every normal tree is written in the line of the grammar for its rank, if there are enough levels
for its mappings. -/
theorem phrased_of_normal (normal : f.Normal) (levels : f.levels ≤ m) :
    Phrased (RankedPhrase m f.rank) f := by
  induction normal generalizing m with
  | text quotable => exact ⟨_, written_quoted quotable, .literal (.quoted rfl)⟩
  | number isNumber => exact (phrased_number isNumber).imp fun _ => .literal
  | length => exact ⟨_, Piece.spelled_length.written, .literal (.length rfl rfl)⟩
  | select step => exact (phrased_select step).imp fun _ => .selectors
  | @path steps several each =>
    match steps, several with
    | s :: t :: steps, _ =>
      exact (phrased_selectors each (.several s t steps)).imp fun _ => .selectors
  | @binary op left right _ _ rank rank' ih ih' =>
    -- The left operand may be of the same line, the right one is of an earlier line.
    rw [Filter.levels, Nat.max_le] at levels
    have phrased := (ih levels.1).imp fun _ phrase => phrase.mono rank
    have phrased' := (ih' levels.2).imp fun _ phrase => phrase.mono (Nat.le_sub_one_of_lt rank')
    cases op with
    | multiply => exact phrased_joined_leftNested (c := '*') rfl phrased phrased'
    | add => exact phrased_joined_leftNested (c := '+') rfl phrased phrased'
  | group several _ ranks ih =>
    rw [Filter.levels, Filter.levelsOfAll_le_iff] at levels
    exact phrased_joined_collapsed (c := ',') rfl several fun f mem =>
      (ih f mem (levels f mem)).imp fun _ phrase => phrase.mono (ranks f mem)
  | mapping names _ ranks ih =>
    rw [Filter.levels] at levels
    cases m with
    | zero => exact absurd levels (Nat.not_succ_le_zero _)
    | succ m =>
      rw [Nat.add_le_add_iff_right, Filter.levelsOfEntries_le_iff] at levels
      have each := phrased_mapping names fun e mem =>
        (ih e mem (levels e mem)).imp fun _ phrase => phrase.mono (ranks e mem)
      exact each.imp fun _ => .mapping
  | pipe several _ ranks ih =>
    rw [Filter.levels, Filter.levelsOfAll_le_iff] at levels
    exact phrased_joined_collapsed (c := '|') rfl several fun f mem =>
      (ih f mem (levels f mem)).imp fun _ phrase => phrase.mono (ranks f mem)

end Grammar

namespace Filter

open Grammar

/-- Parsing a text gives a normal tree whose mappings do not stand deeper inside each other than the
limit allows, and it gives every such tree for some text. -/
theorem parse_image (m : Nat) (f : Filter) :
    (∃ text, parse m text = .ok f) ↔ f.Normal ∧ f.levels ≤ m := by
  constructor
  · rintro ⟨text, parsed⟩
    obtain ⟨ls, spells, program⟩ := parse_eq_ok_iff_spells.mp parsed
    have phrase : RankedPhrase m 4 ls f := program
    exact ⟨(phrase.normal (spells.clean (not_mem_seen text))).1, levels_le_of_parse parsed⟩
  · rintro ⟨normal, levels⟩
    obtain ⟨ls, ⟨text, spells⟩, phrase⟩ := phrased_of_normal normal levels
    -- No rank is above that of a program.
    have program : RankedPhrase m (f.rank + 4) ls f := phrase.mono (Nat.le_add_right _ 4)
    exact ⟨text, parse_eq_ok_iff_spells.mpr ⟨ls, spells, program⟩⟩

end Filter

end TreeQuery
