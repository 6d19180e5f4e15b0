import TreeQuery.Proofs.Token.Places

/-!
# Other layouts of the same tokens

A text is laid out anew: blanks are put between its tokens, and carriage returns anywhere. The new
text falls into the same lexemes. Where a token ends cannot be moved by this: a run ends in front of
what follows it, and if that is moved away, a blank comes first.

## Main definitions

* `Token.EndsIn`, `IsBoundary` — where no token is split
* `Spread` — a text with further blanks and carriage returns
* `Spaced` — the same as a scanner sees it

## Main statements

* `isBoundary_take` — in front of each token there is a boundary
* `Spread.exists_own` — inside of a token there are only further carriage returns
* `tokenize_spread` — the lexemes stay as they are
-/

namespace TreeQuery

open Spelling

/-- The token has come to its end where the text has come to the end of `before`. -/
def Token.EndsIn (t : Token) (before : List Char) : Prop :=
  ∃ front own gap, before = front ++ (own ++ gap) ∧ front.length = t.position.offset ∧
    own.filter (· ≠ '\r') = t.spelling

/-- Behind the characters each of the tokens has ended, or has not begun. -/
def IsBoundary (ts : List Token) (before : List Char) : Prop :=
  ∀ t ∈ ts, t.EndsIn before ∨ before.length ≤ t.position.offset

/-- The second text is what stands behind `before` in the first one, with further blanks at the
boundaries and further carriage returns anywhere. -/
inductive Spread (boundary : List Char → Prop) : (before rest rest' : List Char) → Prop
  | nil {before : List Char} : Spread boundary before [] []
  | keep {before rest rest' : List Char} (c : Char)
      (others : Spread boundary (before ++ [c]) rest rest') :
      Spread boundary before (c :: rest) (c :: rest')
  | blank {before rest rest' : List Char} {c : Char} (isBlank : isBlank c)
      (here : boundary before) (others : Spread boundary before rest rest') :
      Spread boundary before rest (c :: rest')
  | carriageReturn {before rest rest' : List Char} (others : Spread boundary before rest rest') :
      Spread boundary before rest ('\r' :: rest')

/-- The second list of characters has further blanks. -/
inductive Spaced : List Char → List Char → Prop
  | nil : Spaced [] []
  | keep {cs cs' : List Char} (c : Char) (others : Spaced cs cs') : Spaced (c :: cs) (c :: cs')
  | blank {cs cs' : List Char} {c : Char} (isBlank : isBlank c) (others : Spaced cs cs') :
      Spaced cs (c :: cs')

/-! ### Further blanks -/

section

variable {cs cs' run : List Char}

/-- What comes first is a blank, or what came first before. -/
theorem Spaced.head? (h : Spaced cs cs') : ∀ c ∈ cs'.head?, isBlank c ∨ c ∈ cs.head? := by
  cases h with
  | nil => exact fun c mem => .inr mem
  | keep c others => exact fun c mem => .inr mem
  | blank blank others =>
    intro c mem
    obtain rfl := Option.mem_some_iff.mp mem
    exact .inl blank

/-- Further blanks behind a run do not make it longer. -/
theorem Spelling.IsRun.spaced (h : IsRun run cs) (spaced : Spaced cs cs') : IsRun run cs' := by
  have stops (stops : ∀ c ∈ cs.head?, isRunChar c = false) :
      ∀ c ∈ cs'.head?, isRunChar c = false := by
    intro c mem
    rcases spaced.head? c mem with blank | mem
    · simp [isRunChar, blank]
    · exact stops c mem
  cases h with
  | plain nonempty members ends apart =>
    refine .plain nonempty members (stops ends) fun digits d more same => ?_
    subst same
    cases spaced with
    | @keep rest _ _ others =>
      -- A digit that comes behind the point now came there before, for it is no blank.
      rcases others.head? d rfl with blank | first
      · cases isDigit : d.isDigit with
        | false => rfl
        | true =>
          rw [not_isBlank_of_isDigit isDigit] at blank
          cases blank
      · obtain ⟨more', rfl⟩ := List.head?_eq_some_iff.mp first
        exact apart digits d more' rfl
    | blank blank others => exact absurd blank (by decide)
  | fraction nonempty isWhole digit members ends =>
    exact .fraction nonempty isWhole digit members (stops ends)

theorem Spelling.Forms.spaced {own : List Char} {l : Lexeme} (h : Forms cs own l)
    (spaced : Spaced cs cs') : Forms cs' own l := by
  cases h with
  | punctuation isPunctuation => exact .punctuation isPunctuation
  | quoted verbatim => exact .quoted verbatim
  | run isRun => exact .run (isRun.spaced spaced)

end

/-! ### Further blanks and carriage returns -/

namespace Spread

variable {boundary : List Char → Prop} {before gap own rest rest' cs : List Char} {c : Char}

/-- Apart from carriage returns there are only further blanks. -/
theorem spaced (h : Spread boundary before rest rest') :
    Spaced (rest.filter (· ≠ '\r')) (rest'.filter (· ≠ '\r')) := by
  induction h with
  | nil => exact .nil
  | keep c others ih =>
    by_cases isReturn : c = '\r'
    · simpa [isReturn] using ih
    · simpa [isReturn] using ih.keep c
  | @blank before rest rest' c blank here others ih =>
    by_cases isReturn : c = '\r'
    · simpa [isReturn] using ih
    · simpa [isReturn] using ih.blank blank
  | carriageReturn others ih => simpa using ih

/-- In front of a character there are only further blanks, and only carriage returns where no
boundary is. -/
theorem exists_cons (h : Spread boundary before (c :: rest) cs) : ∃ front rest',
    cs = front ++ c :: rest' ∧ (∀ d ∈ front, isBlank d) ∧
      (¬ boundary before → ∀ d ∈ front, d = '\r') ∧ Spread boundary (before ++ [c]) rest rest' := by
  generalize whole : c :: rest = all at h
  induction h with
  | nil => cases whole
  | keep c' others ih =>
    cases whole
    exact ⟨[], _, rfl, nofun, fun _ => nofun, others⟩
  | blank blank here others ih =>
    obtain ⟨front, rest', rfl, areBlank, -, further⟩ := ih whole
    exact ⟨_ :: front, rest', rfl, List.forall_mem_cons.mpr ⟨blank, areBlank⟩,
      fun inside => absurd here inside, further⟩
  | carriageReturn others ih =>
    obtain ⟨front, rest', rfl, areBlank, returns, further⟩ := ih whole
    exact ⟨_ :: front, rest', rfl, List.forall_mem_cons.mpr ⟨by decide, areBlank⟩,
      fun inside => List.forall_mem_cons.mpr ⟨rfl, returns inside⟩, further⟩

theorem forall_isBlank (h : Spread boundary before rest cs) (areBlank : ∀ c ∈ rest, isBlank c) :
    ∀ c ∈ cs, isBlank c := by
  induction h with
  | nil => exact nofun
  | keep c others ih =>
    obtain ⟨here, further⟩ := List.forall_mem_cons.mp areBlank
    exact List.forall_mem_cons.mpr ⟨here, ih further⟩
  | blank blank here others ih => exact List.forall_mem_cons.mpr ⟨blank, ih areBlank⟩
  | carriageReturn others ih => exact List.forall_mem_cons.mpr ⟨by decide, ih areBlank⟩

/-- Blanks remain blanks. -/
theorem exists_gap (h : Spread boundary before (gap ++ rest) cs)
    (areBlank : ∀ c ∈ gap, isBlank c) : ∃ gap' rest', cs = gap' ++ rest' ∧
      (∀ c ∈ gap', isBlank c) ∧ Spread boundary (before ++ gap) rest rest' := by
  induction gap generalizing before cs with
  | nil => exact ⟨[], cs, rfl, nofun, by rwa [List.append_nil]⟩
  | cons c gap ih =>
    obtain ⟨here, further⟩ := List.forall_mem_cons.mp areBlank
    obtain ⟨front, cs', rfl, blanks, -, others⟩ := h.exists_cons
    obtain ⟨gap', rest', rfl, blanks', others'⟩ := ih others further
    refine ⟨front ++ c :: gap', rest', by simp, ?_, ?_⟩
    · exact List.forall_mem_append.mpr ⟨blanks, List.forall_mem_cons.mpr ⟨here, blanks'⟩⟩
    · rwa [List.append_assoc] at others'

/-- Inside of a token there are only further carriage returns. -/
theorem exists_own (h : Spread boundary before (own ++ rest) cs)
    (inside : ∀ front c more, own = front ++ c :: more → ¬ boundary (before ++ front)) :
    ∃ own' rest', cs = own' ++ rest' ∧ own'.filter (· ≠ '\r') = own.filter (· ≠ '\r') ∧
      Spread boundary (before ++ own) rest rest' := by
  induction own generalizing before cs with
  | nil => exact ⟨[], cs, rfl, rfl, by rwa [List.append_nil]⟩
  | cons c own ih =>
    obtain ⟨front, cs', rfl, -, returns, others⟩ := h.exists_cons
    have here : ¬ boundary before := by
      have none := inside [] c own rfl
      rwa [List.append_nil] at none
    have further : ∀ front d more, own = front ++ d :: more →
        ¬ boundary (before ++ [c] ++ front) := by
      rintro front d more rfl
      rw [List.append_assoc]
      exact inside (c :: front) d more rfl
    obtain ⟨own', rest', rfl, same, others'⟩ := ih others further
    have nothing : front.filter (· ≠ '\r') = [] :=
      List.filter_eq_nil_iff.mpr fun d mem => by simp [returns here d mem]
    refine ⟨front ++ c :: own', rest', by simp, ?_, ?_⟩
    · rw [List.filter_append, nothing, List.nil_append, List.filter_cons, List.filter_cons, same]
    · rwa [List.append_assoc] at others'

end Spread

/-! ### Tokens -/

section

variable {before rest own cs : List Char} {t : Token} {c : Outlook}

theorem Token.EndsIn.append (h : t.EndsIn before) (more : List Char) :
    t.EndsIn (before ++ more) := by
  obtain ⟨front, own, gap, rfl, place, spelled⟩ := h
  exact ⟨front, own, gap ++ more, by simp, place, spelled⟩

theorem Token.Occupies.endsIn (h : t.Occupies own rest) (place : t.position = .behind before) :
    t.EndsIn (before ++ own) :=
  ⟨before, own, [], by simp, by rw [place]; rfl, h.filter_eq⟩

/-- No token to come has begun. -/
theorem Placed.length_le (placed : Placed before rest c) :
    ∀ t ∈ c.tokens, before.length ≤ t.position.offset := by
  induction placed with
  | finish => simp
  | fault => simp
  | @token before gap own rest t ts ending _ _ place _ ih =>
    refine List.forall_mem_cons.mpr ⟨?_, fun t' mem => ?_⟩
    · rw [place]
      simp [Position.behind]
    · have further := ih t' mem
      rw [List.length_append] at further
      omega

/-- In front of each token to come there is a boundary, if the tokens before have ended. -/
theorem Placed.isBoundary (placed : Placed before rest c) {earlier : List Token}
    (ended : ∀ t ∈ earlier, t.EndsIn before) : ∀ t ∈ c.tokens,
    IsBoundary (earlier ++ c.tokens) ((before ++ rest).take t.position.offset) := by
  induction placed generalizing earlier with
  | finish => simp
  | fault => simp
  | @token before gap own rest t ts ending _ occupies place others ih =>
    have endsIn := occupies.endsIn place
    rw [List.append_assoc] at endsIn
    refine List.forall_mem_cons.mpr ⟨?_, fun t' mem => ?_⟩
    · have front : (before ++ (gap ++ (own ++ rest))).take t.position.offset = before ++ gap := by
        rw [place, ← List.append_assoc]
        exact List.take_left
      rw [front]
      intro t' mem
      rcases List.mem_append.mp mem with mem | mem
      · exact .inl ((ended t' mem).append gap)
      · refine .inr ?_
        rcases List.mem_cons.mp mem with rfl | mem
        · rw [place]
          rfl
        · have further := others.length_le t' mem
          simp only [List.length_append] at further ⊢
          omega
    · have ended' : ∀ t' ∈ earlier ++ [t], t'.EndsIn (before ++ (gap ++ own)) := by
        intro t' mem
        rcases List.mem_append.mp mem with mem | mem
        · exact (ended t' mem).append _
        · obtain rfl := List.mem_singleton.mp mem
          exact endsIn
      have boundary := ih ended' t' mem
      simpa using boundary

/-- A token has not ended before its last character. -/
theorem Token.Occupies.not_endsIn (h : t.Occupies own rest)
    (place : t.position.offset = before.length) {front more : List Char} {d : Char}
    (split : own = front ++ d :: more) : ¬ t.EndsIn (before ++ front) := by
  rintro ⟨before', own', gap, whole, length, spelled⟩
  obtain ⟨rfl, rfl⟩ := List.append_inj whole (by rw [length, place])
  obtain ⟨others, last, ends, noReturn⟩ := h.last
  obtain ⟨inner, last', closes⟩ : ∃ inner last', d :: more = inner ++ [last'] :=
    (List.eq_nil_or_concat' _).resolve_left (List.cons_ne_nil _ _)
  rw [closes, ← List.append_assoc] at split
  obtain ⟨-, same⟩ := List.append_inj' (split.symm.trans ends) rfl
  cases same
  -- The spelling would be complete without the last character.
  have all := congrArg List.length (h.filter_eq.trans spelled.symm)
  rw [split] at all
  simp only [List.filter_append, List.length_append] at all
  have counted : ([last].filter (· ≠ '\r')).length = 1 := by simp [noReturn]
  omega

/-- However the text is spread, the tokens to come are spelled. -/
theorem Placed.spells_of_spread {boundary : List Char → Prop} {last : Token}
    (placed : Placed before rest c) (ending : c.ending = .ok last)
    (apart : ∀ t ∈ c.tokens, ∀ b, boundary b → t.EndsIn b ∨ b.length ≤ t.position.offset)
    (spread : Spread boundary before rest cs) :
    Spells (cs.filter (· ≠ '\r')) (c.tokens.map Token.lexeme) := by
  have areBlank_filter {gap : List Char} (areBlank : ∀ c ∈ gap, isBlank c) :
      ∀ c ∈ gap.filter (· ≠ '\r'), isBlank c :=
    fun c mem => areBlank c (List.mem_of_mem_filter mem)
  induction placed generalizing cs with
  | finish areBlank =>
    have blanks := areBlank_filter (spread.forall_isBlank areBlank)
    have spelled := Spells.blanks blanks Spells.nil
    rwa [List.append_nil] at spelled
  | fault => cases ending
  | @token before gap own rest t ts ending' areBlank occupies place _ ih =>
    obtain ⟨here, further⟩ := List.forall_mem_cons.mp apart
    obtain ⟨gap', cs', rfl, areBlank', spread⟩ := spread.exists_gap areBlank
    obtain ⟨first, more, rfl, noReturn⟩ := occupies.first
    obtain ⟨front, cs', rfl, blanks, -, spread⟩ := spread.exists_cons
    -- Behind its first character the token has begun, and it ends with the last one.
    have inside : ∀ inner d more', more = inner ++ d :: more' →
        ¬ boundary (before ++ gap ++ [first] ++ inner) := by
      rintro inner d more' rfl boundary
      have offset : t.position.offset = (before ++ gap).length := by rw [place]; rfl
      rw [List.append_assoc] at boundary
      have notEnded : ¬ t.EndsIn (before ++ gap ++ ([first] ++ inner)) :=
        occupies.not_endsIn offset rfl
      have begun := (here _ boundary).resolve_left notEnded
      simp only [offset, List.length_append, List.length_singleton] at begun
      omega
    obtain ⟨more', rest', rfl, same, spread⟩ := spread.exists_own inside
    have others : Spread boundary (before ++ (gap ++ first :: more)) rest rest' := by
      simpa using spread
    have spelled := (occupies.forms.spaced others.spaced).spells (ih ending further others)
    have shape : (gap' ++ (front ++ first :: (more' ++ rest'))).filter (· ≠ '\r') =
        gap'.filter (· ≠ '\r') ++ (front.filter (· ≠ '\r') ++
          ((first :: more).filter (· ≠ '\r') ++ rest'.filter (· ≠ '\r'))) := by
      rw [List.filter_append, List.filter_append, ← List.cons_append, List.filter_append,
        List.filter_cons, List.filter_cons, same]
    rw [shape]
    exact .blanks (areBlank_filter areBlank') (.blanks (areBlank_filter blanks) spelled)

end

/-- In front of each token of a text there is a boundary; in front of the last one that is the end
of the text. -/
theorem isBoundary_take {text : String} {ts : List Token} (tokens : tokenize text = .ok ts) :
    ∀ t ∈ ts, IsBoundary ts (text.toList.take t.position.offset) := by
  obtain ⟨whole, rfl⟩ := Scanner.tokens_eq_ok_iff.mp tokens
  have placed : Placed [] text.toList (Scanner.ofText text).outlook := Scanner.placed_between ..
  have ending : (Scanner.ofText text).outlook.ending = .ok (Scanner.ofText text).finishToken := by
    rw [Scanner.outlook, whole]
  have last : (Scanner.ofText text).finishToken.position = .behind text.toList := by
    rw [placed.eq_of_ok ending]
    rfl
  have atMost (n : Nat) : (text.toList.take n).length ≤
      (Scanner.ofText text).finishToken.position.offset := by
    rw [last]
    exact List.length_take_le' ..
  intro t mem t' mem'
  rcases List.mem_append.mp mem' with mem' | mem'
  · rcases List.mem_append.mp mem with mem | mem
    · have boundary : IsBoundary ([] ++ (Scanner.ofText text).outlook.tokens)
          (([] ++ text.toList).take t.position.offset) := placed.isBoundary (by simp) t mem
      exact boundary t' mem'
    · -- At the end of the text every token has ended.
      obtain rfl := List.mem_singleton.mp mem
      obtain ⟨front, own, behind, split, place, occupies⟩ := placed.exists_own t' mem'
      have ended := (occupies.endsIn place).append behind
      rw [List.append_assoc, ← split] at ended
      refine .inl ?_
      rw [last]
      simpa [Position.behind] using ended
  · obtain rfl := List.mem_singleton.mp mem'
    exact .inr (atMost _)

/-- Further blanks between the tokens of a text and further carriage returns anywhere leave its
lexemes as they are. -/
theorem tokenize_spread {text text' : String} {ts : List Token} (tokens : tokenize text = .ok ts)
    (spread : Spread (IsBoundary ts) [] text.toList text'.toList) :
    ∃ ts', tokenize text' = .ok ts' ∧ ts'.map Token.lexeme = ts.map Token.lexeme := by
  obtain ⟨whole, rfl⟩ := Scanner.tokens_eq_ok_iff.mp tokens
  have placed : Placed [] text.toList (Scanner.ofText text).outlook := Scanner.placed_between ..
  have ending : (Scanner.ofText text).outlook.ending = .ok (Scanner.ofText text).finishToken := by
    rw [Scanner.outlook, whole]
  have spelled := placed.spells_of_spread ending
    (fun t mem b boundary => boundary t (List.mem_append_left _ mem)) spread
  obtain ⟨whole', same⟩ := spells_seen_iff.mp spelled
  refine ⟨_, Scanner.tokens_eq_ok_iff.mpr ⟨whole', rfl⟩, ?_⟩
  rw [List.map_append, List.map_append, same]
  rfl

end TreeQuery
