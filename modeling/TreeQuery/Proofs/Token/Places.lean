import Mathlib.Data.List.DropRight
import TreeQuery.Proofs.Token.Lossless

/-!
# Where tokens stand

The place of a token tells how much of the text comes before it: the offset counts all characters,
the line counts line feeds, and the column counts the characters since the last of these, carriage
returns aside. A scanner moves on character by character and never looks back, so it is described by
what is before it and what is still to come, and each token by what stands before it.

## Main definitions

* `Position.behind` — the place behind some characters, by counting them
* `Scanner.between` — the scanner between two parts of a text
* `Token.Occupies` — the characters that a token takes, carriage returns inside of it included
* `Placed` — what is to come, and where it stands in a text

## Main statements

* `Position.foldl_after` — moving on character by character comes to the place behind them
* `Scanner.placed_between` — the outlook of a scanner stands in its text
* `tokenize_places` — the places of tokens and of unclosed quotes
-/

namespace TreeQuery

open Spelling

/-! ### Places by counting -/

namespace Position

/-- The place behind the characters: the line feeds are counted, then the characters since the last
of them that are no carriage returns, and all characters. -/
def behind (before : List Char) : Position where
  line := 1 + before.count '\n'
  column := 1 + (before.rtakeWhile (· ≠ '\n')).countP (· ≠ '\r')
  offset := before.length

theorem behind_append_singleton (before : List Char) (c : Char) :
    behind (before ++ [c]) = (behind before).after c := by
  unfold after
  split
  · next isReturn =>
    simp [behind, isReturn]
  · next noReturn =>
    split
    · next isFeed =>
      simp [behind, isFeed, Nat.add_comm]
    · next noFeed =>
      simp [behind, noReturn, noFeed, Nat.add_assoc]

/-- Character by character one comes to the place behind them all. -/
theorem foldl_after (before cs : List Char) :
    cs.foldl after (behind before) = behind (before ++ cs) := by
  induction cs generalizing before with
  | nil => simp
  | cons c cs ih =>
    rw [List.foldl_cons, ← behind_append_singleton, ih, List.append_assoc]
    rfl

end Position

/-! ### Scanners in a text -/

/-- The end stands where one comes to character by character. -/
theorem locateFrom_snd (p : Position) (cs : List Char) :
    (locateFrom p cs).2 = cs.foldl .after p := by
  induction cs generalizing p with
  | nil => rfl
  | cons c cs ih => exact ih (p.after c)

namespace Scanner

/-- The scanner in a text, between what is before it and what is still to come. -/
def between (before rest : List Char) : Scanner :=
  ⟨(locateFrom (.behind before) rest).1, (locateFrom (.behind before) rest).2⟩

variable {before rest gap own : List Char}

theorem map_char_between (before rest : List Char) :
    (between before rest).rest.map Spot.char = rest.filter (· ≠ '\r') :=
  map_char_locateFrom _ _

/-- A scanner finds the located characters one by one, and skips the carriage returns. -/
theorem rest_between_cons (before rest : List Char) (c : Char) :
    (between before (c :: rest)).rest =
      if c = '\r' then (between (before ++ [c]) rest).rest
      else ⟨c, .behind before⟩ :: (between (before ++ [c]) rest).rest := by
  simp only [between, locateFrom, Position.behind_append_singleton]

theorem finish_between (before rest : List Char) :
    (between before rest).finish = .behind (before ++ rest) := by
  rw [between, locateFrom_snd, Position.foldl_after]

/-- Where a character was located, the text is split. -/
theorem exists_split_between {front after : List Spot} {spot : Spot}
    (h : (between before rest).rest = front ++ spot :: after) :
    ∃ cs cs', rest = cs ++ spot.char :: cs' ∧ spot.char ≠ '\r' ∧
      spot.position = .behind (before ++ cs) ∧ front = (between before cs).rest ∧
      after = (between (before ++ (cs ++ [spot.char])) cs').rest := by
  induction rest generalizing before front with
  | nil => simp [between, locateFrom] at h
  | cons c rest ih =>
    rw [rest_between_cons] at h
    split at h
    · next isReturn =>
      obtain ⟨cs, cs', rfl, noReturn, place, rfl, rfl⟩ := ih h
      refine ⟨c :: cs, cs', rfl, noReturn, ?_, ?_, ?_⟩
      · rw [place, List.append_assoc]
        rfl
      · rw [rest_between_cons, if_pos isReturn]
      · rw [List.append_assoc]
        rfl
    · next noReturn =>
      cases front with
      | nil =>
        obtain ⟨rfl, rfl⟩ := List.cons.inj h
        exact ⟨[], rest, rfl, noReturn, by rw [List.append_nil], rfl, rfl⟩
      | cons first front =>
        obtain ⟨rfl, others⟩ := List.cons.inj h
        obtain ⟨cs, cs', rfl, noReturn', place, rfl, rfl⟩ := ih others
        refine ⟨c :: cs, cs', rfl, noReturn', ?_, ?_, ?_⟩
        · rw [place, List.append_assoc]
          rfl
        · rw [rest_between_cons, if_neg noReturn]
        · rw [List.append_assoc]
          rfl

end Scanner

/-! ### Tokens in a text -/

/-- The token takes the characters `own` in front of `rest`. Carriage returns stand between the
characters of the token, but neither before nor behind them. -/
structure Token.Occupies (t : Token) (own rest : List Char) : Prop where
  forms : Forms (rest.filter (· ≠ '\r')) (own.filter (· ≠ '\r')) t.lexeme
  first : ∃ c cs, own = c :: cs ∧ c ≠ '\r'
  last : ∃ cs c, own = cs ++ [c] ∧ c ≠ '\r'

/-- What is to come, and where it stands: behind `before` come blanks, then the token, and so on up
to the end or to a quote that is the last one. -/
inductive Placed : (before rest : List Char) → Outlook → Prop
  | finish {before rest : List Char} (areBlank : ∀ c ∈ rest, isBlank c) :
      Placed before rest ⟨[], .ok ⟨.finish, "", .behind (before ++ rest)⟩⟩
  | fault {before gap rest : List Char} (areBlank : ∀ c ∈ gap, isBlank c) (last : '"' ∉ rest) :
      Placed before (gap ++ '"' :: rest) ⟨[], .error ⟨.behind (before ++ gap)⟩⟩
  | token {before gap own rest : List Char} {t : Token} {ts : List Token}
      {ending : Except UnclosedQuote Token} (areBlank : ∀ c ∈ gap, isBlank c)
      (occupies : t.Occupies own rest) (place : t.position = .behind (before ++ gap))
      (others : Placed (before ++ (gap ++ own)) rest ⟨ts, ending⟩) :
      Placed before (gap ++ (own ++ rest)) ⟨t :: ts, ending⟩

namespace Scanner

variable {before rest : List Char} {t : Token} {fault : UnclosedQuote}

/-- Characters of a text that are located as blanks are blanks; so are carriage returns. -/
theorem areBlank_of_between {cs : List Char}
    (areBlank : ∀ spot ∈ (between before cs).rest, isBlank spot.char) : ∀ c ∈ cs, isBlank c := by
  intro c mem
  by_cases isReturn : c = '\r'
  · rw [isReturn]
    decide
  · have kept : c ∈ cs.filter (· ≠ '\r') := by simpa using ⟨mem, isReturn⟩
    rw [← map_char_between before] at kept
    obtain ⟨spot, located, rfl⟩ := List.mem_map.mp kept
    exact areBlank spot located

/-- Where some characters were located, the text is split in front of the first of them and behind
the last one. -/
theorem exists_own_between {front more after : List Spot} {spot : Spot}
    (h : (between before rest).rest = front ++ (spot :: more ++ after)) :
    ∃ gap own rest', rest = gap ++ (own ++ rest') ∧ front = (between before gap).rest ∧
      after = (between (before ++ (gap ++ own)) rest').rest ∧
      spot.position = .behind (before ++ gap) ∧
      own.filter (· ≠ '\r') = (spot :: more).map Spot.char ∧ (∃ c cs, own = c :: cs ∧ c ≠ '\r') ∧
      ∃ cs c, own = cs ++ [c] ∧ c ≠ '\r' := by
  obtain ⟨gap, tail, rfl, noReturn, place, rfl, behind⟩ := exists_split_between h
  rcases List.eq_nil_or_concat' more with rfl | ⟨inner, last, rfl⟩
  · refine ⟨gap, [spot.char], tail, rfl, rfl, behind, place, ?_, ⟨_, _, rfl, noReturn⟩,
      ⟨[], _, rfl, noReturn⟩⟩
    simp [noReturn]
  · have behind' := behind.symm.trans (List.append_assoc inner [last] after)
    obtain ⟨cs, rest', rfl, noReturn', -, rfl, rfl⟩ := exists_split_between behind'
    refine ⟨gap, spot.char :: (cs ++ [last.char]), rest', ?_, rfl, ?_, place, ?_,
      ⟨_, _, rfl, noReturn⟩, ⟨spot.char :: cs, _, rfl, noReturn'⟩⟩
    · simp
    · simp
    · simp [noReturn, noReturn', map_char_between]

/-- A token, in the text. -/
theorem exists_occupies (taken : (between before rest).next.1 = .ok t) (inner : t.kind ≠ .finish) :
    ∃ gap own rest', rest = gap ++ (own ++ rest') ∧ (∀ c ∈ gap, isBlank c) ∧
      t.Occupies own rest' ∧ t.position = .behind (before ++ gap) ∧
      (between before rest).next.2 = between (before ++ (gap ++ own)) rest' := by
  have gives := (between before rest).gives_next
  obtain ⟨blanks, spot, more, whole, areBlank, position, forms⟩ := gives.exists_forms taken inner
  obtain ⟨gap, own, rest', rfl, rfl, after, place, own', first, last⟩ := exists_own_between whole
  have next : (between before (gap ++ (own ++ rest'))).next.2 =
      between (before ++ (gap ++ own)) rest' := by
    have finish : (between before (gap ++ (own ++ rest'))).next.2.finish =
        (between (before ++ (gap ++ own)) rest').finish := by
      rw [gives.finish_eq, finish_between, finish_between]
      simp only [List.append_assoc]
    generalize (between before (gap ++ (own ++ rest'))).next.2 = s at after finish
    cases s
    cases after
    cases finish
    rfl
  rw [after, map_char_between, ← own'] at forms
  exact ⟨gap, own, rest', rfl, areBlank_of_between areBlank, ⟨forms, first, last⟩,
    position.trans place, next⟩

/-- A quote that is never closed, in the text. -/
theorem exists_quote_between (taken : (between before rest).next.1 = .error fault) :
    ∃ gap rest', rest = gap ++ '"' :: rest' ∧ (∀ c ∈ gap, isBlank c) ∧ '"' ∉ rest' ∧
      fault.position = .behind (before ++ gap) := by
  obtain ⟨blanks, spot, after, whole, areBlank, opens, last, place, -⟩ :=
    exists_quote_of_error taken
  obtain ⟨gap, rest', rfl, -, place', rfl, rfl⟩ := exists_split_between whole
  refine ⟨gap, rest', by rw [opens], areBlank_of_between areBlank, fun mem => ?_,
    place.symm.trans place'⟩
  have kept : '"' ∈ rest'.filter (· ≠ '\r') := by simpa using mem
  rw [← map_char_between (before ++ (gap ++ [spot.char]))] at kept
  obtain ⟨spot', located, same⟩ := List.mem_map.mp kept
  exact last spot' located same

/-- What is to come from a scanner stands in the text. -/
theorem placed_between (before rest : List Char) :
    Placed before rest (between before rest).outlook := by
  -- The tokens are found one by one, and each of them takes characters.
  induction h : (between before rest).rest.length using Nat.strongRecOn
    generalizing before rest with
  | _ length ih =>
    subst h
    cases taken : (between before rest).next.1 with
    | error fault =>
      obtain ⟨gap, rest', rfl, areBlank, last, place⟩ := exists_quote_between taken
      rw [outlook_of_error taken]
      obtain ⟨position⟩ := fault
      cases place
      exact .fault areBlank last
    | ok t =>
      by_cases last : t.kind = .finish
      · obtain ⟨nothing, rfl⟩ := (between before rest).gives_next.eq_finishToken taken last
        rw [outlook_of_finish taken last, finishToken, finish_between]
        exact .finish (areBlank_of_between (List.dropWhile_eq_nil_iff.mp nothing))
      · have shorter := length_next_lt taken last
        obtain ⟨gap, own, rest', rfl, areBlank, occupies, place, next⟩ :=
          exists_occupies taken last
        rw [next] at shorter
        rw [outlook_of_ok taken last, next]
        exact .token areBlank occupies place (ih _ shorter _ _ rfl)

end Scanner

/-! ### Whole texts -/

section

variable {before rest own : List Char} {t : Token} {c : Outlook}

theorem Token.Occupies.filter_eq (h : t.Occupies own rest) :
    own.filter (· ≠ '\r') = t.spelling :=
  h.forms.eq_spelling t.position

/-- The first character that a token takes is its own first character. -/
theorem Token.Occupies.head?_eq (h : t.Occupies own rest) : own.head? = t.spelling.head? := by
  obtain ⟨c, cs, rfl, noReturn⟩ := h.first
  rw [← h.filter_eq, List.filter_cons_of_pos (by simpa using noReturn)]
  rfl

/-- Each of the tokens to come stands behind what comes before it. -/
theorem Placed.exists_own (placed : Placed before rest c) : ∀ t ∈ c.tokens, ∃ front own behind,
    before ++ rest = front ++ (own ++ behind) ∧ t.position = .behind front ∧
      t.Occupies own behind := by
  induction placed with
  | finish => exact nofun
  | fault => exact nofun
  | @token before gap own rest t ts ending _ occupies place _ ih =>
    intro t' mem
    rcases List.mem_cons.mp mem with rfl | mem
    · exact ⟨before ++ gap, own, rest, by simp, place, occupies⟩
    · obtain ⟨front, own', behind, whole, place', occupies'⟩ := ih t' mem
      exact ⟨front, own', behind, by rw [← whole]; simp, place', occupies'⟩

/-- The token at the end stands behind the whole text. -/
theorem Placed.eq_of_ok {last : Token} (placed : Placed before rest c)
    (ending : c.ending = .ok last) : last = ⟨.finish, "", .behind (before ++ rest)⟩ := by
  induction placed with
  | finish =>
    cases ending
    rfl
  | fault => cases ending
  | token _ _ _ _ ih =>
    rw [ih ending]
    simp

/-- An unclosed quote is the last one. -/
theorem Placed.exists_quote {fault : UnclosedQuote} (placed : Placed before rest c)
    (ending : c.ending = .error fault) : ∃ front behind,
    before ++ rest = front ++ '"' :: behind ∧ '"' ∉ behind ∧ fault.position = .behind front := by
  induction placed with
  | finish => cases ending
  | @fault before gap rest _ last =>
    cases ending
    exact ⟨before ++ gap, rest, by simp, last, rfl⟩
  | token _ _ _ _ ih =>
    obtain ⟨front, behind, whole, last, place⟩ := ih ending
    exact ⟨front, behind, by rw [← whole]; simp, last, place⟩

end

/-- Every token of a text stands in the text, behind the token before it and blanks, and its place
tells what comes before it: its offset is the number of characters before its own first one, its
line counts the line feeds among them, and its column the characters behind the last line feed that
are no carriage returns. The token at the end stands behind the whole text, and no two tokens stand
in the same place. An unclosed quote, the last one of the text, is placed in the same way. -/
theorem tokenize_places (text : String) :
    (∀ ts, tokenize text = .ok ts →
      (∃ inner last, ts = inner ++ [last] ∧ Placed [] text.toList ⟨inner, .ok last⟩) ∧
      (ts.map (·.position.offset)).Pairwise (· < ·) ∧
      ∀ t ∈ ts, ∃ before own after, text.toList = before ++ (own ++ after) ∧
        t.position = .behind before ∧ own.filter (· ≠ '\r') = t.spelling ∧
        own.head? = t.spelling.head? ∧ (t.kind = .finish → before = text.toList)) ∧
    ∀ fault, tokenize text = .error fault → ∃ before after,
      text.toList = before ++ '"' :: after ∧ '"' ∉ after ∧ fault.position = .behind before := by
  have placed : Placed [] text.toList (Scanner.ofText text).outlook := Scanner.placed_between ..
  have ordered := Scanner.ordered_outlook_ofText text
  have outcome := (Scanner.ofText text).tokens_eq
  have inner : ∀ t ∈ (Scanner.ofText text).outlook.tokens, t.kind ≠ .finish :=
    Scanner.forall_mem_ahead (fun _ _ _ inner => inner) _
  unfold tokenize
  generalize (Scanner.ofText text).outlook = c at placed ordered outcome inner
  obtain ⟨tokens, ending⟩ := c
  rw [outcome]
  constructor
  · intro ts all
    cases ending with
    | error fault => cases all
    | ok last =>
      cases all
      refine ⟨⟨tokens, last, rfl, placed⟩, ?_, fun t mem => ?_⟩
      · rw [List.map_append]
        exact ordered
      · rcases List.mem_append.mp mem with mem | mem
        · obtain ⟨front, own, behind, whole, place, occupies⟩ := placed.exists_own t mem
          exact ⟨front, own, behind, whole, place, occupies.filter_eq, occupies.head?_eq,
            fun last => absurd last (inner t mem)⟩
        · obtain rfl := List.mem_singleton.mp mem
          rw [placed.eq_of_ok rfl]
          exact ⟨text.toList, [], [], by simp, rfl, rfl, rfl, fun _ => rfl⟩
  · intro fault fails
    cases ending with
    | ok last => cases fails
    | error fault' =>
      cases fails
      exact placed.exists_quote rfl

/-- Carriage returns count in the offset only, and a line feed between quotes begins a line. -/
example : (tokenize "\r\"a\nb\r\" c").map (List.map Token.position) =
    .ok [⟨1, 1, 1⟩, ⟨2, 4, 8⟩, ⟨2, 5, 9⟩] := by decide +kernel

end TreeQuery
