import TreeQuery.Proofs.Token.Ahead

/-!
# How lexemes are spelled

Which characters stand for which lexemes, said without a scanner. A blank may stand anywhere between
two lexemes; a run goes on as far as it can. The scanner finds the lexemes of exactly the texts that
are spelled this way. So statements about texts that are put together, by a printer or with commas
between them, need no look at the scanner.

## Main definitions

* `Spelling.IsRun`, `Spelling.Forms` — a run and a lexeme in front of what follows it
* `Spells` — the characters of lexemes
* `Spelling.Breaks` — what may be appended to any text without changing its lexemes

## Main statements

* `Scanner.Gives.exists_forms` — what a scanner takes for a token
* `spells_iff` — the scanner finds the lexemes that are spelled
* `Spells.append` — texts one after the other spell their lexemes one after the other
-/

namespace TreeQuery

namespace Spelling

/-! ### Characters -/

theorem not_isBlank_of_isDigit {c : Char} (h : c.isDigit) : isBlank c = false := by
  simp only [Char.isDigit, Bool.and_eq_true, decide_eq_true_eq] at h
  have lower : 48 ≤ c.toNat := UInt32.le_iff_toNat_le.mp h.1
  have upper : c.toNat ≤ 57 := UInt32.le_iff_toNat_le.mp h.2
  simp only [isBlank, blankRanges, List.any_cons, List.any_nil, Bool.or_false, Bool.or_eq_false_iff,
    Bool.and_eq_false_imp, decide_eq_true_eq, decide_eq_false_iff_not]
  omega

/-- Punctuation is no blank and no quote. -/
theorem solid_of_ofChar? {c : Char} {kind : TokenKind} (h : TokenKind.ofChar? c = some kind) :
    isBlank c = false ∧ c ≠ '"' := by
  unfold TokenKind.ofChar? at h
  split at h <;> first | exact ⟨by decide, by decide⟩ | cases h

theorem isRunChar_of_isDigit {c : Char} (h : c.isDigit) : isRunChar c := by
  have solid := not_isBlank_of_isDigit h
  have noPunctuation : TokenKind.ofChar? c = none := by
    unfold TokenKind.ofChar?
    split <;> first | rfl | cases h
  have noQuote : c ≠ '"' := by
    rintro rfl
    cases h
  simp [isRunChar, solid, noPunctuation, noQuote]

theorem not_isRunChar_of_ofChar? {c : Char} {kind : TokenKind}
    (h : TokenKind.ofChar? c = some kind) : isRunChar c = false := by
  simp [isRunChar, h]

/-! ### Runs -/

/-- The characters are a run, if those of `rest` follow. Digits in front of a point with another
digit after it do not end there. -/
inductive IsRun : (run rest : List Char) → Prop
  | plain {run rest : List Char} (nonempty : run ≠ []) (members : ∀ c ∈ run, isRunChar c)
      (stops : ∀ c ∈ rest.head?, isRunChar c = false)
      (apart : run.all Char.isDigit → ∀ d more, rest = '.' :: d :: more → d.isDigit = false) :
      IsRun run rest
  | fraction {whole digits rest : List Char} {d : Char} (nonempty : whole ≠ [])
      (isWhole : ∀ c ∈ whole, c.isDigit) (digit : d.isDigit) (members : ∀ c ∈ digits, isRunChar c)
      (stops : ∀ c ∈ rest.head?, isRunChar c = false) : IsRun (whole ++ '.' :: d :: digits) rest

/-- At the end, a run needs no look at what follows. -/
theorem isRun_nil {run : List Char} (nonempty : run ≠ []) (members : ∀ c ∈ run, isRunChar c) :
    IsRun run [] :=
  .plain nonempty members nofun nofun

theorem IsRun.begins {run rest : List Char} (h : IsRun run rest) :
    ∃ c cs, run = c :: cs ∧ isRunChar c := by
  cases h with
  | plain nonempty members _ _ =>
    cases run with
    | nil => exact absurd rfl nonempty
    | cons c cs => exact ⟨c, cs, rfl, members c (List.mem_cons_self ..)⟩
  | @fraction whole _ _ _ nonempty isWhole _ _ _ =>
    cases whole with
    | nil => exact absurd rfl nonempty
    | cons c cs => exact ⟨c, _, rfl, isRunChar_of_isDigit (isWhole c (List.mem_cons_self ..))⟩

/-- One lexeme: the characters that stand for it, if those of `rest` follow. -/
inductive Forms (rest : List Char) : List Char → Lexeme → Prop
  | punctuation {c : Char} {kind : TokenKind} (isPunctuation : TokenKind.ofChar? c = some kind) :
      Forms rest [c] ⟨kind, String.singleton c⟩
  | quoted {inner : List Char} (verbatim : '"' ∉ inner) :
      Forms rest ('"' :: (inner ++ ['"'])) ⟨.quoted, String.ofList inner⟩
  | run {run : List Char} (isRun : IsRun run rest) :
      Forms rest run ⟨if isNumeral run then .number else .text, String.ofList run⟩

end Spelling

open Spelling

/-- The characters are those of the lexemes, with blanks around them. -/
inductive Spells : List Char → List Lexeme → Prop
  | nil : Spells [] []
  | blank {c : Char} {cs : List Char} {ls : List Lexeme} (isBlank : isBlank c)
      (rest : Spells cs ls) :
      Spells (c :: cs) ls
  | punctuation {c : Char} {kind : TokenKind} {cs : List Char} {ls : List Lexeme}
      (isPunctuation : TokenKind.ofChar? c = some kind) (rest : Spells cs ls) :
      Spells (c :: cs) (⟨kind, String.singleton c⟩ :: ls)
  | quoted {inner cs : List Char} {ls : List Lexeme} (verbatim : '"' ∉ inner)
      (rest : Spells cs ls) :
      Spells ('"' :: (inner ++ '"' :: cs)) (⟨.quoted, String.ofList inner⟩ :: ls)
  | run {run cs : List Char} {ls : List Lexeme} (isRun : IsRun run cs) (rest : Spells cs ls) :
      Spells (run ++ cs) (⟨if isNumeral run then .number else .text, String.ofList run⟩ :: ls)

/-- A lexeme and those behind it. -/
theorem Spelling.Forms.spells {rest own : List Char} {l : Lexeme} {ls : List Lexeme}
    (h : Forms rest own l) (others : Spells rest ls) : Spells (own ++ rest) (l :: ls) := by
  cases h with
  | punctuation isPunctuation => exact .punctuation isPunctuation others
  | quoted verbatim =>
    rw [List.cons_append, List.append_assoc]
    exact .quoted verbatim others
  | run isRun => exact .run isRun others

/-- Blanks in front spell nothing. -/
theorem Spells.blanks {gap cs : List Char} {ls : List Lexeme} (areBlank : ∀ c ∈ gap, isBlank c)
    (others : Spells cs ls) : Spells (gap ++ cs) ls := by
  induction gap with
  | nil => exact others
  | cons c gap ih =>
    obtain ⟨here, further⟩ := List.forall_mem_cons.mp areBlank
    exact .blank here (ih further)

/-! ### What the scanner does with spelled lexemes -/

section

variable {p : Char → Bool} {inner rest : List Spot} {spots : List Spot}

/-- Taking characters stops where they are no longer inside. -/
theorem takeWhile_of_stops (inside : ∀ s ∈ inner, p s.char)
    (stops : ∀ c ∈ (rest.map Spot.char).head?, p c = false) :
    (inner ++ rest).takeWhile (p ·.char) = inner := by
  rw [List.takeWhile_append_of_pos inside]
  cases rest with
  | nil => simp
  | cons s rest => simp [stops s.char rfl]

theorem dropWhile_of_stops (inside : ∀ s ∈ inner, p s.char)
    (stops : ∀ c ∈ (rest.map Spot.char).head?, p c = false) :
    (inner ++ rest).dropWhile (p ·.char) = rest := by
  rw [List.dropWhile_append_of_pos inside]
  cases rest with
  | nil => simp
  | cons s rest => simp [stops s.char rfl]

end

/-- A run is split off where it ends. -/
theorem splitRun_of_isRun {run rest : List Spot}
    (h : IsRun (run.map Spot.char) (rest.map Spot.char)) :
    splitRun (run ++ rest) = (run, rest) := by
  generalize hrun : run.map Spot.char = cs at h
  generalize hrest : rest.map Spot.char = cs' at h
  cases h with
  | plain nonempty members stops apart =>
    subst hrun hrest
    have inside : ∀ s ∈ run, isRunChar s.char :=
      fun s mem => members s.char (List.mem_map_of_mem mem)
    unfold splitRun
    simp only [takeWhile_of_stops inside stops, dropWhile_of_stops inside stops]
    split
    · -- A point may follow the run, but no digit behind it, if all of the run are digits.
      next point digit more =>
      refine if_neg ?_
      rintro ⟨isPoint, isDigit, digits⟩
      have none := apart (by simpa using digits) digit.char (more.map Spot.char) (by simp [isPoint])
      rw [none] at isDigit
      cases isDigit
    · rfl
  | @fraction whole digits _ d nonempty isWhole digit members stops =>
    subst hrest
    obtain ⟨ws, tail, rfl, rfl, ht⟩ := List.map_eq_append_iff.mp hrun
    obtain ⟨point, tail, rfl, isPoint, ht⟩ := List.map_eq_cons_iff.mp ht
    obtain ⟨first, ds, rfl, rfl, rfl⟩ := List.map_eq_cons_iff.mp ht
    have wholeInside : ∀ s ∈ ws, isRunChar s.char :=
      fun s mem => isRunChar_of_isDigit (isWhole s.char (List.mem_map_of_mem mem))
    -- A point is no character of a run, so that the digits in front of it are split off first.
    have pointStops : ∀ c ∈ ((point :: first :: (ds ++ rest)).map Spot.char).head?,
        isRunChar c = false := by
      simp only [List.map_cons, List.head?_cons, Option.mem_some_iff, isPoint]
      rintro c rfl
      decide
    have inside : ∀ s ∈ first :: ds, isRunChar s.char := by
      intro s mem
      rcases List.mem_cons.mp mem with rfl | mem
      · exact isRunChar_of_isDigit digit
      · exact members s.char (List.mem_map_of_mem mem)
    have isDigits : ws.all (·.char.isDigit) = true := by
      rw [List.all_eq_true]
      intro s mem
      exact isWhole s.char (List.mem_map_of_mem mem)
    have shape : (ws ++ point :: first :: ds) ++ rest = ws ++ point :: first :: (ds ++ rest) := by
      simp
    unfold splitRun
    rw [shape]
    simp only [takeWhile_of_stops wholeInside pointStops, dropWhile_of_stops wholeInside pointStops]
    rw [if_pos ⟨isPoint, digit, isDigits⟩, ← List.cons_append,
      takeWhile_of_stops inside stops, dropWhile_of_stops inside stops]

theorem stops_dropWhile {p : Char → Bool} (spots : List Spot) :
    ∀ c ∈ ((spots.dropWhile (p ·.char)).map Spot.char).head?, p c = false := by
  have boundary := List.head?_dropWhile_not (fun s : Spot => p s.char) spots
  intro c mem
  cases rest : spots.dropWhile (p ·.char) with
  | nil =>
    rw [rest] at mem
    cases mem
  | cons s more =>
    rw [rest] at mem boundary
    simp only [List.map_cons, List.head?_cons, Option.mem_some_iff] at mem
    subst mem
    simpa using boundary

theorem inside_takeWhile {p : Char → Bool} (spots : List Spot) :
    ∀ s ∈ spots.takeWhile (p ·.char), p s.char := by
  have inside := List.all_takeWhile (p := fun s : Spot => p s.char) (l := spots)
  exact List.all_eq_true.mp inside

/-- A point and what follows it are taken along only between digits. -/
theorem splitRun_cases (spots : List Spot) :
    (∃ point digit more, spots.dropWhile (isRunChar ·.char) = point :: digit :: more ∧
        point.char = '.' ∧ digit.char.isDigit ∧
        (∀ s ∈ spots.takeWhile (isRunChar ·.char), s.char.isDigit) ∧
        splitRun spots = (spots.takeWhile (isRunChar ·.char) ++
          point :: (digit :: more).takeWhile (isRunChar ·.char),
          (digit :: more).dropWhile (isRunChar ·.char))) ∨
      splitRun spots = (spots.takeWhile (isRunChar ·.char), spots.dropWhile (isRunChar ·.char)) ∧
        ((∀ s ∈ spots.takeWhile (isRunChar ·.char), s.char.isDigit) →
          ∀ d more, (spots.dropWhile (isRunChar ·.char)).map Spot.char = '.' :: d :: more →
            d.isDigit = false) := by
  simp only [splitRun]
  split
  · next point digit more behind =>
    rw [behind]
    split
    · next h =>
      obtain ⟨isPoint, isDigit, digits⟩ := h
      exact .inl ⟨point, digit, more, rfl, isPoint, isDigit, List.all_eq_true.mp digits, rfl⟩
    · next h =>
      refine .inr ⟨rfl, fun digits d more' same => ?_⟩
      obtain ⟨isPoint, same⟩ := List.cons.inj same
      obtain ⟨rfl, -⟩ := List.cons.inj same
      cases isDigit : digit.char.isDigit with
      | false => rfl
      | true => exact absurd ⟨isPoint, isDigit, List.all_eq_true.mpr digits⟩ h
  · next noPoint =>
    refine .inr ⟨rfl, fun _ d more same => ?_⟩
    obtain ⟨point, tail, behind, -, same⟩ := List.map_eq_cons_iff.mp same
    obtain ⟨digit, more, rfl, -, -⟩ := List.map_eq_cons_iff.mp same
    exact absurd behind (noPoint point digit more)

/-- What is split off is a run. -/
theorem isRun_splitRun {spot : Spot} (rest : List Spot) (solid : isRunChar spot.char) :
    IsRun ((splitRun (spot :: rest)).1.map Spot.char) ((splitRun (spot :: rest)).2.map Spot.char) ∧
      (splitRun (spot :: rest)).1 ++ (splitRun (spot :: rest)).2 = spot :: rest := by
  have nonempty : (spot :: rest).takeWhile (isRunChar ·.char) ≠ [] := by
    simp [solid]
  have inside := inside_takeWhile (p := isRunChar) (spot :: rest)
  have whole := List.takeWhile_append_dropWhile (p := fun s : Spot => isRunChar s.char)
    (l := spot :: rest)
  rcases splitRun_cases (spot :: rest) with
    ⟨point, digit, more, behind, isPoint, isDigit, digits, split⟩ | ⟨split, apart⟩
  · have inside' := inside_takeWhile (p := isRunChar) more
    have stops := stops_dropWhile (p := isRunChar) (digit :: more)
    have runChar := isRunChar_of_isDigit isDigit
    rw [behind] at whole
    rw [split]
    constructor
    · rw [List.takeWhile_cons_of_pos (p := fun s : Spot => isRunChar s.char) runChar,
        List.map_append, List.map_cons, List.map_cons, isPoint]
      exact .fraction (by simpa using nonempty) (by simpa using digits) isDigit
        (by simpa using inside') stops
    · rw [List.append_assoc, List.cons_append, List.takeWhile_append_dropWhile]
      exact whole
  · have stops := stops_dropWhile (p := isRunChar) (spot :: rest)
    rw [split]
    exact ⟨.plain (by simpa using nonempty) (by simpa using inside) stops
      (by simpa using apart), whole⟩

/-! ### The scanner, by its first character -/

namespace Scanner

variable {spot : Spot} {rest : List Spot} {finish : Position}

theorem next_of_blank (blank : isBlank spot.char) :
    (⟨spot :: rest, finish⟩ : Scanner).next = (⟨rest, finish⟩ : Scanner).next := by
  simp only [next, List.dropWhile_cons, blank, if_true]
  rfl

/-- At a character that is no blank, nothing is skipped. -/
theorem dropWhile_of_solid (solid : isBlank spot.char = false) :
    (spot :: rest).dropWhile (isBlank ·.char) = spot :: rest := by
  simp [solid]

theorem next_of_punctuation {kind : TokenKind} (h : TokenKind.ofChar? spot.char = some kind) :
    (⟨spot :: rest, finish⟩ : Scanner).next =
      (.ok ⟨kind, String.singleton spot.char, spot.position⟩, ⟨rest, finish⟩) := by
  obtain ⟨solid, noQuote⟩ := solid_of_ofChar? h
  simp only [next, dropWhile_of_solid solid]
  rw [if_neg noQuote, h]

theorem next_of_quote {inner : List Spot} {closing : Spot} (opens : spot.char = '"')
    (verbatim : ∀ s ∈ inner, s.char ≠ '"') (closes : closing.char = '"') :
    (⟨spot :: (inner ++ closing :: rest), finish⟩ : Scanner).next =
      (.ok ⟨.quoted, textOf inner, spot.position⟩, ⟨rest, finish⟩) := by
  have solid : isBlank spot.char = false := by
    rw [opens]
    decide
  have inside : ∀ s ∈ inner, decide (s.char ≠ '"') = true := by simpa using verbatim
  have stops : ∀ c ∈ ((closing :: rest).map Spot.char).head?, decide (c ≠ '"') = false := by
    simp [closes]
  have taken := takeWhile_of_stops (p := fun c => decide (c ≠ '"')) inside stops
  have left := dropWhile_of_stops (p := fun c => decide (c ≠ '"')) inside stops
  simp only [next, dropWhile_of_solid solid]
  rw [if_pos opens, taken, left]

theorem next_of_run {run : List Spot} (isRun : IsRun (run.map Spot.char) (rest.map Spot.char))
    (finish : Position) : ∃ position, (⟨run ++ rest, finish⟩ : Scanner).next =
      (.ok ⟨if isNumeral (run.map Spot.char) then .number else .text, textOf run, position⟩,
        ⟨rest, finish⟩) := by
  have split := splitRun_of_isRun isRun
  obtain ⟨c, cs, begins, solid⟩ := isRun.begins
  obtain ⟨spot, run', rfl, rfl, -⟩ := List.map_eq_cons_iff.mp begins
  simp only [isRunChar, Bool.and_eq_true, Bool.not_eq_true', decide_eq_true_eq,
    Option.isNone_iff_eq_none] at solid
  obtain ⟨⟨noBlank, noQuote⟩, noPunctuation⟩ := solid
  refine ⟨spot.position, ?_⟩
  rw [List.cons_append] at split ⊢
  simp only [next, dropWhile_of_solid noBlank]
  rw [if_neg noQuote, noPunctuation, split]

theorem ahead_congr {s s' : Scanner} (same : s.next = s'.next) : s.ahead = s'.ahead := by
  cases taken : s.next.1 with
  | error fault => rw [ahead_of_error taken, ahead_of_error (same ▸ taken)]
  | ok t =>
    by_cases last : t.kind = .finish
    · rw [ahead_of_finish taken last, ahead_of_finish (same ▸ taken) last]
    · rw [ahead_of_ok taken last]
      rw [same] at taken ⊢
      rw [ahead_of_ok taken last]

theorem ahead_of_next {s s' : Scanner} {t : Token} (h : s.next = (.ok t, s'))
    (inner : t.kind ≠ .finish) : s.ahead = (t :: s'.ahead.1, s'.ahead.2) := by
  have taken : s.next.1 = .ok t := by rw [h]
  rw [ahead_of_ok taken inner, h]

/-- The lexemes that are spelled lie ahead. -/
theorem ahead_of_spells {cs : List Char} {ls : List Lexeme} (h : Spells cs ls) (s : Scanner)
    (same : s.rest.map Spot.char = cs) : s.ahead.2 = none ∧ s.ahead.1.map Token.lexeme = ls := by
  obtain ⟨spots, finish⟩ := s
  dsimp only at same
  induction h generalizing spots with
  | nil =>
    rw [List.map_eq_nil_iff] at same
    subst same
    have taken : (⟨[], finish⟩ : Scanner).next.1 = .ok ⟨.finish, "", finish⟩ := rfl
    rw [ahead_of_finish taken rfl]
    exact ⟨rfl, rfl⟩
  -- Whatever is spelled first, the scanner takes it or passes over it and stands in front of the
  -- rest.
  | blank isBlank _ ih =>
    obtain ⟨spot, rest, rfl, rfl, same'⟩ := List.map_eq_cons_iff.mp same
    rw [ahead_congr (next_of_blank isBlank)]
    exact ih rest same'
  | punctuation isPunctuation _ ih =>
    obtain ⟨spot, rest, rfl, rfl, same'⟩ := List.map_eq_cons_iff.mp same
    rw [ahead_of_next (next_of_punctuation isPunctuation)
      (TokenKind.ne_finish_of_ofChar? isPunctuation)]
    obtain ⟨none, lexemes⟩ := ih rest same'
    exact ⟨none, by rw [List.map_cons, lexemes]; rfl⟩
  | quoted verbatim _ ih =>
    obtain ⟨spot, tail, rfl, opens, behind⟩ := List.map_eq_cons_iff.mp same
    obtain ⟨inner, tail, rfl, rfl, closed⟩ := List.map_eq_append_iff.mp behind
    obtain ⟨closing, rest, rfl, closes, same'⟩ := List.map_eq_cons_iff.mp closed
    have verbatim' : ∀ s ∈ inner, s.char ≠ '"' := by
      intro s mem isQuote
      exact verbatim (isQuote ▸ List.mem_map_of_mem mem)
    rw [ahead_of_next (next_of_quote opens verbatim' closes) nofun]
    obtain ⟨none, lexemes⟩ := ih rest same'
    exact ⟨none, by rw [List.map_cons, lexemes]; rfl⟩
  | run isRun _ ih =>
    obtain ⟨run, rest, rfl, rfl, same'⟩ := List.map_eq_append_iff.mp same
    subst same'
    obtain ⟨position, taken⟩ := next_of_run isRun finish
    rw [ahead_of_next taken (ne_finish_of_run _)]
    obtain ⟨none, lexemes⟩ := ih rest rfl
    exact ⟨none, by rw [List.map_cons, lexemes]; rfl⟩

/-! ### What a token takes -/

section

variable {s : Scanner} {given : Except UnclosedQuote Token × Scanner} {t : Token}

/-- What is found behind the blanks, with the blanks in front of it. -/
theorem exists_areBlank {found : List Spot} (h : s.rest.dropWhile (isBlank ·.char) = found) :
    ∃ blanks, s.rest = blanks ++ found ∧ ∀ spot ∈ blanks, isBlank spot.char :=
  ⟨_, h ▸ List.takeWhile_append_dropWhile.symm, inside_takeWhile s.rest⟩

/-- What is taken for a token: blanks, the characters that stand for it, and no more. The token
stands where the first of them does. -/
theorem Gives.exists_forms (gives : s.Gives given) (h : given.1 = .ok t)
    (inner : t.kind ≠ .finish) : ∃ blanks spot more,
      s.rest = blanks ++ (spot :: more ++ given.2.rest) ∧
      (∀ spot ∈ blanks, isBlank spot.char) ∧ t.position = spot.position ∧
      Forms (given.2.rest.map Spot.char) ((spot :: more).map Spot.char) t.lexeme := by
  cases gives with
  | finish =>
    cases h
    exact absurd rfl inner
  | unclosed => cases h
  | @quoted spot closing quoted rest found opens verbatim closes =>
    cases h
    obtain ⟨blanks, whole, areBlank⟩ := exists_areBlank found
    refine ⟨blanks, spot, quoted ++ [closing], ?_, areBlank, rfl, ?_⟩
    · rw [whole, List.cons_append, List.append_assoc, List.singleton_append]
    · rw [List.map_cons, List.map_append, List.map_singleton, opens, closes]
      exact .quoted (by simpa using verbatim)
  | @punctuation spot rest kind found isPunctuation =>
    cases h
    obtain ⟨blanks, whole, areBlank⟩ := exists_areBlank found
    exact ⟨blanks, spot, [], whole, areBlank, rfl, .punctuation isPunctuation⟩
  | @run spot rest run rest' found solid split =>
    cases h
    obtain ⟨isRun, own⟩ := isRun_splitRun rest solid
    rw [split] at isRun own
    obtain ⟨blanks, whole, areBlank⟩ := exists_areBlank found
    -- A run is not empty, so that its first character tells where it stands.
    obtain ⟨c, cs, begins, -⟩ := isRun.begins
    obtain ⟨first, more, rfl, -, -⟩ := List.map_eq_cons_iff.mp begins
    obtain ⟨rfl, -⟩ := List.cons.inj own
    exact ⟨blanks, first, more, by rw [whole, ← own], areBlank, rfl, .run isRun⟩

/-- The next token is spelled by the characters that it takes. -/
theorem Gives.spells {ls : List Lexeme} (gives : s.Gives given) (h : given.1 = .ok t)
    (inner : t.kind ≠ .finish) (rest : Spells (given.2.rest.map Spot.char) ls) :
    Spells (s.rest.map Spot.char) (t.lexeme :: ls) := by
  obtain ⟨blanks, spot, more, whole, areBlank, -, forms⟩ := gives.exists_forms h inner
  rw [whole, List.map_append, List.map_append]
  exact .blanks (by simpa using areBlank) (forms.spells rest)

end

/-- If no fault lies ahead, the lexemes ahead are spelled. -/
theorem spells_ahead (s : Scanner) (whole : s.ahead.2 = none) :
    Spells (s.rest.map Spot.char) (s.ahead.1.map Token.lexeme) := by
  -- The tokens ahead are found one by one, and each of them takes characters.
  induction h : s.rest.length using Nat.strongRecOn generalizing s with
  | _ length ih =>
    subst h
    cases taken : s.next.1 with
    | error fault =>
      rw [ahead_of_error taken] at whole
      cases whole
    | ok t =>
      by_cases last : t.kind = .finish
      · rw [ahead_of_finish taken last]
        obtain ⟨nothing, -⟩ := s.gives_next.eq_finishToken taken last
        obtain ⟨blanks, whole', areBlank⟩ := exists_areBlank nothing
        rw [whole', List.map_append]
        exact .blanks (by simpa using areBlank) .nil
      · rw [ahead_of_ok taken last] at whole ⊢
        have rest := ih _ (length_next_lt taken last) s.next.2 whole rfl
        exact s.gives_next.spells taken last rest

end Scanner

/-- The scanner finds the lexemes that are spelled. -/
theorem spells_iff {s : Scanner} {ls : List Lexeme} :
    Spells (s.rest.map Spot.char) ls ↔ s.ahead.2 = none ∧ s.ahead.1.map Token.lexeme = ls := by
  constructor
  · intro h
    exact Scanner.ahead_of_spells h s rfl
  · rintro ⟨whole, rfl⟩
    exact Scanner.spells_ahead s whole

/-- The characters of a text that a scanner sees. -/
def seen (text : String) : List Char := text.toList.filter (· ≠ '\r')

theorem seen_append (text text' : String) : seen (text ++ text') = seen text ++ seen text' := by
  simp [seen]

theorem spells_seen_iff {text : String} {ls : List Lexeme} :
    Spells (seen text) ls ↔ (Scanner.ofText text).ahead.2 = none ∧
      (Scanner.ofText text).ahead.1.map Token.lexeme = ls := by
  rw [← spells_iff]
  have same : (Scanner.ofText text).rest.map Spot.char = seen text :=
    map_char_locateFrom .start text.toList
  rw [same]

/-! ### One text after the other -/

/-- A run may end in front of these characters, and so may digits. -/
structure Spelling.Breaks (cs : List Char) : Prop where
  stops : ∀ c ∈ cs.head?, isRunChar c = false
  apart : ∀ d more, cs = '.' :: d :: more → d.isDigit = false

theorem Spelling.breaks_nil : Breaks [] :=
  ⟨by simp, nofun⟩

/-- Punctuation other than a point breaks. -/
theorem Spelling.breaks_of_ofChar? {c : Char} {kind : TokenKind} {cs : List Char}
    (h : TokenKind.ofChar? c = some kind) (noPoint : c ≠ '.') : Breaks (c :: cs) := by
  constructor
  · intro c' mem
    simp only [List.head?_cons, Option.mem_some_iff] at mem
    exact mem ▸ not_isRunChar_of_ofChar? h
  · rintro d more same
    exact absurd (List.cons.inj same).1 noPoint

theorem Spelling.breaks_of_blank {c : Char} {cs : List Char} (h : isBlank c) :
    Breaks (c :: cs) := by
  constructor
  · intro c' mem
    simp only [List.head?_cons, Option.mem_some_iff] at mem
    subst mem
    simp [isRunChar, h]
  · rintro d more same
    have noPoint : isBlank '.' = false := by decide
    obtain ⟨rfl, -⟩ := List.cons.inj same
    rw [noPoint] at h
    cases h

/-- Nothing that breaks changes a run in front of it. -/
theorem Spelling.IsRun.append {run rest cs : List Char} (h : IsRun run rest) (breaks : Breaks cs) :
    IsRun run (rest ++ cs) := by
  have stops (stops : ∀ c ∈ rest.head?, isRunChar c = false) :
      ∀ c ∈ (rest ++ cs).head?, isRunChar c = false := by
    cases rest with
    | nil => exact breaks.stops
    | cons c rest => exact stops
  cases h with
  | plain nonempty members ends apart =>
    refine .plain nonempty members (stops ends) ?_
    intro digits d more same
    cases rest with
    | nil => exact breaks.apart d more same
    | cons c rest =>
      obtain ⟨rfl, behind⟩ := List.cons.inj same
      cases rest with
      | nil =>
        -- A digit would belong to a run, so it does not break.
        have behind' : cs = d :: more := behind
        cases isDigit : d.isDigit with
        | false => rfl
        | true =>
          have stop := breaks.stops d (by rw [behind']; rfl)
          rw [isRunChar_of_isDigit isDigit] at stop
          cases stop
      | cons d' rest =>
        obtain ⟨rfl, -⟩ := List.cons.inj behind
        exact apart digits d' rest rfl
  | fraction nonempty isWhole digit members ends =>
    exact .fraction nonempty isWhole digit members (stops ends)

/-- Texts one after the other spell their lexemes one after the other, if the second one breaks. -/
theorem Spells.append {cs cs' : List Char} {ls ls' : List Lexeme} (h : Spells cs ls)
    (h' : Spells cs' ls') (breaks : Breaks cs') : Spells (cs ++ cs') (ls ++ ls') := by
  induction h with
  | nil => exact h'
  | blank isBlank _ ih => exact .blank isBlank ih
  | punctuation isPunctuation _ ih => exact .punctuation isPunctuation ih
  | @quoted inner cs ls verbatim _ ih =>
    rw [List.cons_append, List.append_assoc, List.cons_append]
    exact .quoted verbatim ih
  | run isRun _ ih =>
    rw [List.append_assoc]
    exact .run (isRun.append breaks) ih

end TreeQuery
