import TreeQuery.Proofs.Decimal.Numeral
import TreeQuery.Proofs.Filter.Pieces

/-!
# Pieces are spelled

The characters of pieces are spelled as their lexemes. Behind blanks, punctuation and quoted texts
anything may follow; a name, a position or a literal goes on into what follows unless that breaks.

A quoted text must not have a quote in it, nor a carriage return, which no scanner sees. The lexemes
of a text never have either.

## Main definitions

* `Lexeme.Clean` — a lexeme that can be quoted
* `Piece.Spelled`, `Piece.Breaking` — rows of pieces, alone and behind others

## Main statements

* `Spells.clean` — what is spelled is clean
* `Piece.Spelled.append` — rows of pieces one after the other
-/

namespace TreeQuery

/-- The lexeme can stand between quotes. -/
def Lexeme.Clean (l : Lexeme) : Prop := '"' ∉ l.text.toList ∧ '\r' ∉ l.text.toList

open Spelling

/-- Blanks, quotes and most punctuation do not belong to runs. -/
theorem Spelling.IsRun.not_mem {run rest : List Char} (h : IsRun run rest) {c : Char}
    (outside : isRunChar c = false) (noPoint : c ≠ '.') : c ∉ run := by
  have other {c' : Char} (member : isRunChar c') : c ≠ c' := by
    rintro rfl
    rw [outside] at member
    cases member
  intro mem
  cases h with
  | plain _ members _ _ => exact other (members c mem) rfl
  | fraction _ isWhole digit members _ =>
    rcases List.mem_append.mp mem with mem | mem
    · exact other (isRunChar_of_isDigit (isWhole c mem)) rfl
    · rcases List.mem_cons.mp mem with same | mem
      · exact noPoint same
      · rcases List.mem_cons.mp mem with same | mem
        · exact other (isRunChar_of_isDigit digit) same
        · exact other (members c mem) rfl

/-- What is spelled is clean. -/
theorem Spells.clean {cs : List Char} {ls : List Lexeme} (h : Spells cs ls) (noReturn : '\r' ∉ cs) :
    ∀ l ∈ ls, l.Clean := by
  induction h with
  | nil => exact fun l mem => absurd mem List.not_mem_nil
  | blank _ _ ih => exact ih fun mem => noReturn (List.mem_cons_of_mem _ mem)
  | @punctuation c kind cs ls isPunctuation _ ih =>
    rw [List.forall_mem_cons]
    refine ⟨⟨?_, ?_⟩, ih fun mem => noReturn (List.mem_cons_of_mem _ mem)⟩
    · intro mem
      rw [String.toList_singleton, List.mem_singleton] at mem
      exact (solid_of_ofChar? isPunctuation).2 mem.symm
    · intro mem
      rw [String.toList_singleton, List.mem_singleton] at mem
      exact noReturn (mem ▸ List.mem_cons_self ..)
  | @quoted inner cs ls verbatim _ ih =>
    rw [List.forall_mem_cons]
    refine ⟨⟨?_, ?_⟩, ih fun mem => noReturn (by simp [mem])⟩
    · rw [String.toList_ofList]
      exact verbatim
    · rw [String.toList_ofList]
      exact fun mem => noReturn (by simp [mem])
  | @run run cs ls isRun _ ih =>
    rw [List.forall_mem_cons]
    refine ⟨⟨?_, ?_⟩, ih fun mem => noReturn (List.mem_append_right _ mem)⟩
    · rw [String.toList_ofList]
      exact isRun.not_mem (by decide) (by decide)
    · rw [String.toList_ofList]
      exact fun mem => noReturn (List.mem_append_left _ mem)

theorem not_mem_seen (text : String) : '\r' ∉ seen text := by
  simp [seen]

theorem seen_eq {text : String} (noReturn : '\r' ∉ text.toList) : seen text = text.toList := by
  rw [seen, List.filter_eq_self]
  intro c mem
  have other : c ≠ '\r' := by
    rintro rfl
    exact noReturn mem
  simpa using other

/-- A run on its own. -/
theorem spells_run {text : String} (isRun : IsRun text.toList []) :
    Spells (seen text) [⟨if isNumeral text.toList then .number else .text, text⟩] := by
  have spelled := Spells.run isRun .nil
  rw [List.append_nil, String.ofList_toList] at spelled
  rw [seen_eq (isRun.not_mem (by decide) (by decide))]
  exact spelled

namespace Piece

variable {p : Piece} {ps ps' : List Piece}

/-- The pieces are spelled as their lexemes. -/
def Spelled (ps : List Piece) : Prop := Spells (chars ps) (lexemesOf ps)

/-- A run may end in front of the pieces. -/
def Breaking (ps : List Piece) : Prop := Breaks (chars ps)

theorem spelled_nil : Spelled [] := .nil

/-- Rows of pieces one after the other are spelled, if the second one breaks. -/
theorem Spelled.append (h : Spelled ps) (h' : Spelled ps') (breaks : Breaking ps') :
    Spelled (ps ++ ps') := by
  unfold Spelled
  rw [chars_append, lexemesOf_append]
  exact Spells.append h h' breaks

theorem Spelled.cons (first : Spelled [p]) (rest : Spelled ps) (breaks : Breaking ps) :
    Spelled (p :: ps) :=
  first.append rest breaks

/-! ### Blanks, punctuation and quoted texts -/

theorem Spelled.blank (h : Spelled ps) : Spelled (.blank :: ps) :=
  Spells.blank (by decide) h

theorem seen_singleton {c : Char} {kind : TokenKind} (isMark : TokenKind.ofChar? c = some kind) :
    seen (String.singleton c) = [c] := by
  have solid := (solid_of_ofChar? isMark).1
  have noReturn : '\r' ∉ (String.singleton c).toList := by
    rw [String.toList_singleton, List.mem_singleton]
    rintro rfl
    exact absurd solid (by decide)
  rw [seen_eq noReturn, String.toList_singleton]

theorem Spelled.mark (h : Spelled ps) {c : Char} {kind : TokenKind}
    (isMark : TokenKind.ofChar? c = some kind) : Spelled (.mark c kind isMark :: ps) := by
  unfold Spelled
  rw [chars_cons, text, seen_singleton isMark]
  exact Spells.punctuation isMark h

theorem seen_quote {s : String} (noReturn : '\r' ∉ s.toList) :
    seen (quote s) = '"' :: (s.toList ++ ['"']) := by
  rw [quote, seen_append, seen_append, seen_eq noReturn]
  rfl

theorem Spelled.quoted (h : Spelled ps) {l : Lexeme} (clean : l.Clean) :
    Spelled (.quoted l.text :: ps) := by
  have spelled := Spells.quoted clean.1 h
  rw [String.ofList_toList] at spelled
  unfold Spelled
  rw [chars_cons, text, seen_quote clean.2, List.cons_append, List.append_assoc]
  exact spelled

theorem breaking_nil : Breaking [] := breaks_nil

theorem breaking_blank : Breaking (.blank :: ps) :=
  breaks_of_blank (by decide)

theorem breaking_mark {c : Char} {kind : TokenKind} (isMark : TokenKind.ofChar? c = some kind)
    (noPoint : c ≠ '.') : Breaking (.mark c kind isMark :: ps) := by
  unfold Breaking
  rw [chars_cons, text, seen_singleton isMark]
  exact breaks_of_ofChar? isMark noPoint

/-! ### Names, positions and literals -/

/-- Bare names are not empty and do not begin with a digit. -/
theorem exists_of_readsBare {s : String} (bare : readsBare s) :
    ∃ c cs, s.toList = c :: cs ∧ c.isDigit = false ∧ s.toList.all isRunChar := by
  unfold readsBare at bare
  split at bare
  · cases bare
  · next c cs same =>
    simp only [Bool.and_eq_true, Bool.not_eq_true'] at bare
    obtain ⟨⟨-, noDigit⟩, members⟩ := bare
    rw [same]
    exact ⟨c, cs, rfl, noDigit, members⟩

/-- A point in front of a name breaks, for a name does not begin with a digit. -/
theorem breaking_key (s : String) : Breaking (.dot :: .name s :: ps) := by
  unfold Breaking
  constructor
  · intro c mem
    have same : '.' = c := Option.some.inj mem
    rw [← same]
    decide
  · intro d more same
    have behind : seen (Piece.name s).text ++ chars ps = d :: more := (List.cons.inj same).2
    unfold name at behind
    split at behind
    · next bare =>
      obtain ⟨c, cs, begins, noDigit, members⟩ := exists_of_readsBare bare
      have noReturn : '\r' ∉ s.toList :=
        fun mem => absurd (List.all_eq_true.mp members _ mem) (by decide)
      rw [text, seen_eq noReturn, begins] at behind
      exact (List.cons.inj behind).1 ▸ noDigit
    · rw [text, quote, seen_append, seen_append] at behind
      exact (List.cons.inj behind).1 ▸ rfl

/-- What does not begin with a digit is no numeral. -/
theorem spelled_word {s : String} {c : Char} {cs : List Char} (begins : s.toList = c :: cs)
    (noDigit : c.isDigit = false) (members : s.toList.all isRunChar) : Spelled [.word s] := by
  have noNumeral : isNumeral s.toList = false := by simp [isNumeral, begins, noDigit]
  have isRun : IsRun s.toList [] := by
    apply isRun_nil
    · rw [begins]
      exact List.cons_ne_nil c cs
    · exact List.all_eq_true.mp members
  have spelled := spells_run isRun
  rw [noNumeral] at spelled
  unfold Spelled
  rw [chars_cons, chars_nil, List.append_nil]
  exact spelled

theorem spelled_length : Spelled [.word "length"] :=
  spelled_word rfl (by decide) (by decide)

theorem spelled_name {l : Lexeme} (clean : l.Clean) : Spelled [.name l.text] := by
  unfold name
  split
  · next bare =>
    obtain ⟨c, cs, begins, noDigit, members⟩ := exists_of_readsBare bare
    exact spelled_word begins noDigit members
  · exact spelled_nil.quoted clean

/-- Numerals are spelled as numbers. -/
theorem spells_numeral {s : String} {d : Decimal} (h : Decimal.Denotes s.toList d) :
    Spells (seen s) [⟨.number, s⟩] := by
  have spelled := spells_run h.isRun
  rw [h.isNumeral] at spelled
  exact spelled

theorem denotes_toString (i : Nat) :
    Decimal.Denotes (toString i).toList ⟨Nat.ofDigitChars 10 (toString i).toList 0, 0⟩ := by
  have digits : (toString i).toList = Nat.toDigits 10 i := by
    rw [Nat.toString_eq_ofList_toDigits, String.toList_ofList]
  refine .whole ?_ ?_
  · rw [digits]
    exact Nat.toDigits_ne_nil
  · rw [digits]
    exact fun c mem => Decimal.isDigit_of_mem_toDigits mem

theorem spelled_index (i : Nat) : Spelled [.index i] := by
  unfold Spelled
  rw [chars_cons, chars_nil, List.append_nil]
  exact spells_numeral (denotes_toString i)

theorem spelled_literal {x : Float} (number : x.isNaN = false) : Spelled [.literal x] := by
  have minus : TokenKind.ofChar? '-' = some .minus := rfl
  unfold Spelled
  rw [chars_cons, chars_nil, List.append_nil, lexemesOf_cons, lexemesOf_nil, List.append_nil, text,
    lexemes, printNumber, lexemesOfNumber]
  cases finite : Dyadic.ofFloat? x with
  | some d =>
    obtain ⟨d', denotes, -⟩ := Filter.layout.exists_denotes_writeDecimal rfl (fun _ => rfl) finite
    have magnitude := spells_numeral denotes
    simp only [Layout.writeFinite, seen_append]
    cases d.negative with
    | true => exact Spells.punctuation minus magnitude
    | false => exact magnitude
  | none =>
    have infinity : Spelled [.word "inf"] := spelled_word rfl (by decide) (by decide)
    simp only [number, Bool.false_eq_true, if_false]
    split
    · exact Spells.punctuation minus infinity
    · exact infinity

end Piece

end TreeQuery
