import TreeQuery.Proofs.Token.Spelling

/-!
# What is still to come, places included

The view of a parser forgets where its lexemes stand. An error names a place, so this module keeps
the tokens themselves, together with whatever stands behind the last of them: the token at the end
of the text, or a quote that is never closed. All of these stand at different places, one after the
other, so that a place says how many tokens come before it.

## Main definitions

* `Outlook`, `Scanner.outlook` — the tokens to come, and what stands behind them
* `Outlook.place` — where the next thing to come stands
* `Outlook.Ordered`, `Outlook.Past` — statements about the places

## Main statements

* `Scanner.tokens_eq` — all tokens of a scanner, or its fault, by its outlook
* `Scanner.ordered_outlook_ofText` — the places of a text follow each other
* `Outlook.Ordered.filter_lt` — the tokens before the place where some tokens have come
-/

namespace TreeQuery

/-- What is still to come: tokens, and behind them the token at the end of the text or a quote that
is never closed. -/
structure Outlook where
  tokens : List Token
  ending : Except UnclosedQuote Token

namespace Outlook

variable {c : Outlook} {t : Token} {ts ts' : List Token} {o : Nat}

/-- The outlook with further tokens in front of it. -/
def behind (c : Outlook) (ts : List Token) : Outlook :=
  ⟨ts ++ c.tokens, c.ending⟩

/-- The place behind the last token. -/
def limit (c : Outlook) : Position :=
  match c.ending with
  | .ok last => last.position
  | .error fault => fault.position

/-- The place of what comes next. -/
def place (c : Outlook) : Position :=
  match c.tokens with
  | t :: _ => t.position
  | [] => c.limit

/-- All places to come. -/
def offsets (c : Outlook) : List Nat :=
  c.tokens.map (·.position.offset) ++ [c.limit.offset]

/-- The places follow each other. -/
def Ordered (c : Outlook) : Prop := c.offsets.Pairwise (· < ·)

/-- All that is to come stands behind the offset. -/
def Past (o : Nat) (c : Outlook) : Prop := ∀ i ∈ c.offsets, o < i

@[simp] theorem behind_behind (c : Outlook) : (c.behind ts').behind ts = c.behind (ts ++ ts') := by
  simp [behind]

theorem behind_inj {c c' : Outlook} : c.behind ts = c'.behind ts ↔ c = c' := by
  obtain ⟨_, _⟩ := c
  obtain ⟨_, _⟩ := c'
  simp [behind]

theorem offsets_behind (c : Outlook) :
    (c.behind ts).offsets = ts.map (·.position.offset) ++ c.offsets := by
  simp only [offsets, behind, List.map_append, List.append_assoc, limit]

/-- The next place is the first of all. -/
theorem offsets_eq_cons (c : Outlook) : ∃ rest, c.offsets = c.place.offset :: rest := by
  obtain ⟨tokens, ending⟩ := c
  cases tokens with
  | nil => exact ⟨[], rfl⟩
  | cons t ts => exact ⟨_, rfl⟩

theorem Ordered.of_behind (h : (c.behind ts).Ordered) : c.Ordered := by
  rw [Ordered, offsets_behind] at h
  exact (List.pairwise_append.mp h).2.1

theorem Past.of_behind (h : (c.behind ts).Past o) : c.Past o := by
  rw [Past, offsets_behind] at h
  exact fun i mem => h i (List.mem_append_right _ mem)

theorem Past.place (h : c.Past o) : o < c.place.offset := by
  obtain ⟨rest, same⟩ := c.offsets_eq_cons
  exact h _ (same ▸ List.mem_cons_self ..)

/-- What comes behind a token stands behind its place. -/
theorem Ordered.past (h : (c.behind [t]).Ordered) : c.Past t.position.offset := by
  rw [Ordered, offsets_behind] at h
  exact (List.pairwise_cons.mp h).1

/-- What comes behind some tokens stands no earlier than what comes first. -/
theorem Ordered.place_le (h : (c.behind ts).Ordered) :
    (c.behind ts).place.offset ≤ c.place.offset := by
  cases ts with
  | nil => exact Nat.le_refl _
  | cons t ts =>
    have later : (c.behind ts).Past t.position.offset := by
      refine Ordered.past (t := t) ?_
      rw [behind_behind]
      exact h
    exact Nat.le_of_lt later.of_behind.place

/-- The tokens before the next place are those that have come. -/
theorem Ordered.filter_lt (h : (c.behind ts).Ordered) :
    (c.behind ts).tokens.filter (·.position.offset < c.place.offset) = ts := by
  obtain ⟨rest, first⟩ := c.offsets_eq_cons
  have later := h.of_behind
  rw [Ordered, first, List.pairwise_cons] at later
  rw [Ordered, offsets_behind, List.pairwise_append] at h
  have come : ts.filter (·.position.offset < c.place.offset) = ts := by
    refine List.filter_eq_self.mpr fun t mem => decide_eq_true ?_
    exact h.2.2 _ (List.mem_map_of_mem mem) _ (first ▸ List.mem_cons_self ..)
  have toCome : c.tokens.filter (·.position.offset < c.place.offset) = [] := by
    refine List.filter_eq_nil_iff.mpr fun t mem => ?_
    have listed : t.position.offset ∈ c.place.offset :: rest :=
      first ▸ List.mem_append_left _ (List.mem_map_of_mem mem)
    rw [decide_eq_true_eq, Nat.not_lt]
    rcases List.mem_cons.mp listed with same | mem
    · exact Nat.le_of_eq same.symm
    · exact Nat.le_of_lt (later.1 _ mem)
  rw [behind, List.filter_append, come, toCome, List.append_nil]

end Outlook

namespace Scanner

variable {s : Scanner} {t : Token} {fault : UnclosedQuote}

/-- What is to come from a scanner. -/
def outlook (s : Scanner) : Outlook where
  tokens := s.ahead.1
  ending :=
    match s.ahead.2 with
    | none => .ok s.finishToken
    | some fault => .error fault

theorem outlook_of_error (h : s.next.1 = .error fault) : s.outlook = ⟨[], .error fault⟩ := by
  rw [outlook, ahead_of_error h]

theorem outlook_of_finish (h : s.next.1 = .ok t) (last : t.kind = .finish) :
    s.outlook = ⟨[], .ok t⟩ := by
  rw [outlook, ahead_of_finish h last, (s.gives_next.eq_finishToken h last).2]

theorem outlook_of_ok (h : s.next.1 = .ok t) (inner : t.kind ≠ .finish) :
    s.outlook = s.next.2.outlook.behind [t] := by
  rw [outlook, ahead_of_ok h inner, finishToken, ← s.gives_next.finish_eq]
  rfl

/-- The first of the tokens to come is the next one. -/
theorem next_of_outlook {c : Outlook} {ts : List Token} (h : s.outlook = c.behind (t :: ts)) :
    s.next.1 = .ok t ∧ s.next.2.outlook = c.behind ts := by
  cases taken : s.next.1 with
  | error fault =>
    rw [outlook_of_error taken] at h
    cases congrArg Outlook.tokens h
  | ok t' =>
    by_cases last : t'.kind = .finish
    · rw [outlook_of_finish taken last] at h
      cases congrArg Outlook.tokens h
    · rw [outlook_of_ok taken last] at h
      obtain ⟨rfl, -⟩ := List.cons.inj (congrArg Outlook.tokens h)
      have whole : s.next.2.outlook.behind [t'] = (c.behind ts).behind [t'] := by
        rw [h, Outlook.behind_behind]
        rfl
      exact ⟨rfl, Outlook.behind_inj.mp whole⟩

/-- After the end there is only the end. -/
theorem outlook_next_of_finish (h : s.next.1 = .ok t) (last : t.kind = .finish) :
    s.next.2.outlook = s.outlook := by
  have stays : s.next.2.next = s.next := by
    have nothing := (s.gives_next.eq_finishToken h last).1
    have ended : s.next = (.ok s.finishToken, { s with rest := [] }) := by
      rw [next, nothing]
    rw [ended]
    rfl
  have again : s.next.2.next.1 = .ok t := by
    rw [stays]
    exact h
  rw [outlook_of_finish h last, outlook_of_finish again last]

theorem kind_of_ending {last : Token} (h : s.outlook.ending = .ok last) : last.kind = .finish := by
  simp only [outlook] at h
  split at h <;> cases h
  rfl

/-- All tokens, the end included, or the fault among them. -/
theorem tokens_eq (s : Scanner) :
    s.tokens = s.outlook.ending.map fun last => s.outlook.tokens ++ [last] := by
  induction h : s.rest.length using Nat.strongRecOn generalizing s with
  | _ length ih =>
    subst h
    rw [tokens]
    split
    · next fault taken =>
      rw [outlook_of_error taken]
      rfl
    · next t taken =>
      by_cases last : t.kind = .finish
      · rw [dif_pos last, outlook_of_finish taken last]
        rfl
      · rw [dif_neg last, outlook_of_ok taken last, ih _ (length_next_lt taken last) _ rfl]
        simp only [Outlook.behind]
        cases s.next.2.outlook.ending <;> rfl

/-! ### The places follow each other -/

/-- Where the characters in front of a scanner stand, the end included. -/
def offsets (s : Scanner) : List Nat :=
  s.rest.map (·.position.offset) ++ [s.finish.offset]

/-- A token stands where its first character does, and takes it along. -/
theorem Gives.exists_spot {given : Except UnclosedQuote Token × Scanner} (gives : s.Gives given)
    (h : given.1 = .ok t) (inner : t.kind ≠ .finish) :
    ∃ front spot more, spot.position = t.position ∧
      s.rest = front ++ spot :: (more ++ given.2.rest) := by
  obtain ⟨blanks, spot, more, whole, -, place, -⟩ := gives.exists_forms h inner
  exact ⟨blanks, spot, more, place.symm, whole⟩

/-- A fault stands where the quote does. -/
theorem Gives.exists_quote {given : Except UnclosedQuote Token × Scanner} (gives : s.Gives given)
    (h : given.1 = .error fault) :
    ∃ front spot rest, spot.position = fault.position ∧ s.rest = front ++ spot :: rest := by
  cases gives with
  | unclosed found =>
    cases h
    obtain ⟨blanks, whole, -⟩ := exists_areBlank found
    exact ⟨blanks, _, _, rfl, whole⟩
  | _ => cases h

/-- Whatever is to come stands where some character does, or at the end, and in the same order. -/
theorem offsets_outlook_sublist (s : Scanner) : s.outlook.offsets.Sublist s.offsets := by
  induction h : s.rest.length using Nat.strongRecOn generalizing s with
  | _ length ih =>
    subst h
    cases taken : s.next.1 with
    | error fault =>
      obtain ⟨front, spot, rest, place, whole⟩ := s.gives_next.exists_quote taken
      rw [outlook_of_error taken, offsets, whole]
      refine List.singleton_sublist.mpr (List.mem_append_left _ (List.mem_map.mpr ⟨spot, ?_, ?_⟩))
      · exact List.mem_append_right _ (List.mem_cons_self ..)
      · exact congrArg Position.offset place
    | ok t =>
      by_cases last : t.kind = .finish
      · rw [outlook_of_finish taken last, (s.gives_next.eq_finishToken taken last).2]
        exact List.sublist_append_right ..
      · obtain ⟨front, spot, more, place, whole⟩ := s.gives_next.exists_spot taken last
        have rest := ih _ (length_next_lt taken last) s.next.2 rfl
        rw [offsets, s.gives_next.finish_eq] at rest
        rw [outlook_of_ok taken last, Outlook.offsets_behind, offsets, whole]
        simp only [List.map_append, List.map_cons, List.append_assoc, List.map_nil,
          List.cons_append, List.nil_append, ← place]
        refine List.Sublist.trans ?_ (List.sublist_append_right ..)
        exact (rest.trans (List.sublist_append_right ..)).cons_cons _

end Scanner

/-! ### Places in a text -/

theorem Position.offset_after (p : Position) (c : Char) : (p.after c).offset = p.offset + 1 := by
  unfold after
  split
  · rfl
  · split <;> rfl

/-- Located characters stand one behind the other, and the end stands behind them all. -/
theorem pairwise_offsets_locateFrom (p : Position) (cs : List Char) :
    let offsets := (locateFrom p cs).1.map (·.position.offset) ++ [(locateFrom p cs).2.offset]
    offsets.Pairwise (· < ·) ∧ ∀ i ∈ offsets, p.offset ≤ i := by
  induction cs generalizing p with
  | nil => simp [locateFrom]
  | cons c cs ih =>
    obtain ⟨order, later⟩ := ih (p.after c)
    rw [p.offset_after] at later
    simp only [locateFrom]
    split
    · exact ⟨order, fun i mem => Nat.le_of_lt (later i mem)⟩
    · refine ⟨List.pairwise_cons.mpr ⟨later, order⟩, fun i mem => ?_⟩
      rcases List.mem_cons.mp mem with rfl | mem
      · exact Nat.le_refl _
      · exact Nat.le_of_lt (later i mem)

theorem Scanner.ordered_outlook_ofText (text : String) : (ofText text).outlook.Ordered :=
  (pairwise_offsets_locateFrom .start text.toList).1.sublist (offsets_outlook_sublist _)

/-- Behind a token of a text, all that is to come stands behind the place of the token. -/
theorem Scanner.exists_past_of_isPrefix {text : String} {ts : List Token} {t : Token}
    (begins : ts ++ [t] <+: (ofText text).ahead.1) :
    ∃ c : Outlook, (ofText text).outlook = c.behind (ts ++ [t]) ∧ c.Past t.position.offset := by
  obtain ⟨rest, whole⟩ := begins
  have outlook : (ofText text).outlook =
      (Outlook.mk rest (ofText text).outlook.ending).behind (ts ++ [t]) := by
    rw [Outlook.behind, whole]
    rfl
  have ordered := ordered_outlook_ofText text
  rw [outlook, ← Outlook.behind_behind] at ordered
  exact ⟨_, outlook, ordered.of_behind.past⟩

end TreeQuery
