import TreeQuery.Proofs.Grammar.Continuation
import TreeQuery.Proofs.Token.Outlook

/-!
# What a production makes of its tokens

A production that gives a value has taken the tokens of a phrase, and no other phrase could have
stood there as far as the tokens show, the one that comes next included. A production that fails
points at what comes next after some tokens: the tokens can be continued to a phrase, but together
with what comes next they cannot. The two belong together, for an error of one production is an
error of the productions around it only because these could not have taken the tokens otherwise.

This module has the rules for reading one token or one phrase after the other; each production is
put together from them.

## Main definitions

* `Grammar.Candidate` — a phrase that has not been ruled out yet
* `Parser.Settles`, `Parser.Blames` — what holds after a value and after an error
* `Parsing.Examines` — a run settles for a phrase, or blames what comes next

## Main statements

* `Parsing.Examines.bind` — one phrase after the other
* `Parsing.Examines.after` — the rest of a phrase after its first token
* `Parsing.Examines.narrow` — only some of the phrases begin with what comes next
-/

namespace TreeQuery

open Grammar

/-- The causes that are found at a token, not at the end or at a quote. -/
def ParseError.OfToken : ParseError → Prop
  | unclosedQuote _ => False
  | unexpectedEnd .. => False
  | _ => True

namespace Outlook

variable {c : Outlook} {t : Token} {ts : List Token} {ls : List Lexeme} {e : ParseError}

/-- The lexemes begin with what comes next: with the first token, or with nothing where the text
ends. An unclosed quote begins nothing. -/
def Heads : Outlook → List Lexeme → Prop
  | ⟨t :: _, _⟩, ls => ∃ rest, ls = t.lexeme :: rest
  | ⟨[], .ok _⟩, ls => ls = []
  | ⟨[], .error _⟩, _ => False

/-- The error is about what comes next. -/
def Raises : Outlook → ParseError → Prop
  | ⟨t :: _, _⟩, e => e.OfToken ∧ e.position = t.position
  | ⟨[], .ok last⟩, e => ∃ expected, e = .unexpectedEnd expected last.position
  | ⟨[], .error fault⟩, e => e = .unclosedQuote fault

theorem Heads.behind (h : c.Heads ls) : (c.behind ts).Heads (ts.map Token.lexeme ++ ls) := by
  cases ts with
  | nil => exact h
  | cons t ts => exact ⟨_, rfl⟩

theorem Raises.position (h : c.Raises e) : e.position = c.place := by
  match c, h with
  | ⟨_ :: _, _⟩, h => exact h.2
  | ⟨[], .ok _⟩, ⟨_, h⟩ => exact congrArg ParseError.position h
  | ⟨[], .error _⟩, h => exact congrArg ParseError.position h

end Outlook

namespace Grammar

variable {L M : Language Lexeme} {ends inner outer : TokenKind → Bool} {c : Outlook} {l : Lexeme}
  {seen phrase : List Lexeme} {ts : List Token}

/-- The phrase has not been ruled out: the lexemes seen so far and what comes next may turn out to
be the phrase and something that may follow it. -/
def Candidate (L : Language Lexeme) (ends : TokenKind → Bool) (seen : List Lexeme) (c : Outlook)
    (phrase : List Lexeme) : Prop :=
  phrase ∈ L ∧ ∃ more rest, Follows ends more ∧ phrase ++ more = seen ++ rest ∧ c.Heads rest

/-- What may come after the first of two phrases, whatever the second one is. -/
def Between (M : Language Lexeme) (inner outer : TokenKind → Bool) : Prop :=
  ∀ ls ∈ M, ∀ more, Follows outer more → Follows inner (ls ++ more)

theorem Candidate.first (between : Between M inner outer)
    (h : Candidate (L * M) outer seen c phrase) : ∃ a, Candidate L inner seen c a := by
  obtain ⟨mem, more, rest, further, same, heads⟩ := h
  obtain ⟨a, hL, b, hM, rfl⟩ := Language.mem_mul.mp mem
  rw [List.append_assoc] at same
  exact ⟨a, hL, b ++ more, rest, between b hM more further, same, heads⟩

/-- Where the first of two phrases is certain, what remains open is the second. -/
theorem Candidate.second (between : Between M inner outer)
    (certain : ∀ a, Candidate L inner seen (c.behind ts) a → a = seen)
    (h : Candidate (L * M) outer (seen ++ ts.map Token.lexeme) c phrase) :
    ∃ b, phrase = seen ++ b ∧ Candidate M outer (ts.map Token.lexeme) c b := by
  obtain ⟨mem, more, rest, further, same, heads⟩ := h
  obtain ⟨a, hL, b, hM, rfl⟩ := Language.mem_mul.mp mem
  rw [List.append_assoc, List.append_assoc] at same
  obtain rfl := certain a ⟨hL, b ++ more, _, between b hM more further, same, heads.behind⟩
  exact ⟨b, rfl, hM, more, rest, further, List.append_cancel_left same, heads⟩

/-- After the first lexeme, the rest of the phrase remains open. -/
theorem Candidate.rest (same : ∀ ls, l :: ls ∈ L ↔ ls ∈ M) (goesOn : [] ∈ L → ends l.kind = false)
    (h : Candidate L ends (l :: seen) c phrase) :
    ∃ tail, phrase = l :: tail ∧ Candidate M ends seen c tail := by
  obtain ⟨mem, more, rest, further, whole, heads⟩ := h
  cases phrase with
  | nil =>
    rw [List.nil_append] at whole
    rw [whole, List.cons_append, follows_cons, goesOn mem] at further
    cases further
  | cons l' tail =>
    simp only [List.cons_append, List.cons.injEq] at whole
    obtain ⟨rfl, whole⟩ := whole
    exact ⟨tail, rfl, (same tail).mp mem, more, rest, further, whole, heads⟩

/-- No phrase begins with the token, and where the phrase may be missing, the token may not follow
it. -/
structure Rejects (L : Language Lexeme) (ends : TokenKind → Bool) (t : Token) : Prop where
  cons : ∀ ls, t.lexeme :: ls ∉ L
  nil : [] ∈ L → t.kind ≠ .finish ∧ ends t.kind = false

/-- Where no phrase may be missing, a token that begins none is rejected. -/
theorem rejects_of_notMem {t : Token} (nonnil : [] ∉ L) (apart : ∀ ls, t.lexeme :: ls ∉ L) :
    Rejects L ends t :=
  ⟨apart, fun mem => absurd mem nonnil⟩

end Grammar

namespace Parser

variable {p q : Parser} {t : Token} {ts : List Token} {ls : List Lexeme}

/-- What is still to come, the token handed back first. -/
def outlook (p : Parser) : Outlook :=
  match p.handedBack with
  | none => p.scanner.outlook
  | some t => if t.kind = .finish then ⟨[], .ok t⟩ else p.scanner.outlook.behind [t]

/-- The second parser is the first after it gave the token `t`, and has room for a token. -/
structure Yields (p : Parser) (t : Token) (q : Parser) : Prop where
  free : q.handedBack = none
  depth : SameDepth p q
  outlook : p.outlook = if t.kind = .finish then ⟨[], .ok t⟩ else q.outlook.behind [t]

/-- The second parser stands some tokens further on than the first, with as many mappings open. -/
structure Consumes (p : Parser) (ts : List Token) (q : Parser) : Prop where
  outlook : p.outlook = q.outlook.behind ts
  depth : SameDepth p q

theorem Consumes.room (h : p.Consumes ts q) : q.room = p.room := h.depth.room

theorem Yields.consumes (h : p.Yields t q) (inner : t.kind ≠ .finish) : p.Consumes [t] q :=
  ⟨by rw [h.outlook, if_neg inner], h.depth⟩

/-- What begins with the next token begins with it, unless the token is the end. -/
theorem Yields.heads (h : p.Yields t q) (heads : p.outlook.Heads ls) :
    if t.kind = .finish then ls = [] else ∃ rest, ls = t.lexeme :: rest := by
  rw [h.outlook] at heads
  split
  · next last =>
    rw [if_pos last] at heads
    exact heads
  · next inner =>
    rw [if_neg inner] at heads
    exact heads

theorem Yields.heads_lexeme (h : p.Yields t q) (inner : t.kind ≠ .finish) (ls : List Lexeme) :
    p.outlook.Heads (t.lexeme :: ls) := by
  rw [h.outlook, if_neg inner]
  exact ⟨ls, rfl⟩

theorem Yields.heads_cons {l : Lexeme} (h : p.Yields t q) (heads : p.outlook.Heads (l :: ls)) :
    l = t.lexeme := by
  have next := h.heads heads
  split at next
  · cases next
  · obtain ⟨_, same⟩ := next
    exact (List.cons.inj same).1

/-- What is refused is what comes next. -/
theorem Yields.raises (h : p.Yields t q) {e : ParseError} (inner : t.kind ≠ .finish)
    (ofToken : e.OfToken) (place : e.position = t.position) : p.outlook.Raises e := by
  rw [h.outlook, if_neg inner]
  exact ⟨ofToken, place⟩

theorem Yields.raises_ofToken (h : p.Yields t q) (expected : Expectation) :
    p.outlook.Raises (.ofToken t expected) := by
  rw [h.outlook, ParseError.ofToken]
  split
  · exact ⟨expected, rfl⟩
  · exact ⟨trivial, rfl⟩

/-- From `p` to `q` the tokens of a phrase were taken, and as far as they and what comes next show,
no other phrase could have stood there. -/
def Settles (p : Parser) (L : Language Lexeme) (ends : TokenKind → Bool) (q : Parser) : Prop :=
  ∃ ts, p.Consumes ts q ∧ ts.map Token.lexeme ∈ L ∧
    ∀ phrase, Candidate L ends (ts.map Token.lexeme) q.outlook phrase → phrase = ts.map Token.lexeme

/-- The error is about what comes next after some tokens: these can be continued to a phrase, but
not with what comes next. -/
def Blames (p : Parser) (L : Language Lexeme) (ends : TokenKind → Bool) (e : ParseError) : Prop :=
  ∃ ts c, p.outlook = c.behind ts ∧ c.Raises e ∧ (∃ more, ts.map Token.lexeme ++ more ∈ L) ∧
    ∀ phrase, ¬ Candidate L ends (ts.map Token.lexeme) c phrase

section Phrases

variable {r : Parser} {L M : Language Lexeme} {ends inner outer : TokenKind → Bool} {e : ParseError}

theorem Settles.room (h : p.Settles L ends q) : q.room = p.room := by
  obtain ⟨_, consumed, -⟩ := h
  exact consumed.room

/-- One phrase after the other. -/
theorem Settles.trans (h : p.Settles L inner q) (between : Between M inner outer)
    (h' : q.Settles M outer r) : p.Settles (L * M) outer r := by
  obtain ⟨ts, consumed, mem, certain⟩ := h
  obtain ⟨ts', consumed', mem', certain'⟩ := h'
  have whole : p.Consumes (ts ++ ts') r :=
    ⟨by rw [consumed.outlook, consumed'.outlook, Outlook.behind_behind],
      consumed.depth.trans consumed'.depth⟩
  rw [consumed'.outlook] at certain
  refine ⟨ts ++ ts', whole, ?_, fun phrase candidate => ?_⟩
  · rw [List.map_append]
    exact Language.append_mem_mul mem mem'
  · rw [List.map_append] at candidate ⊢
    obtain ⟨b, rfl, tail⟩ := candidate.second between certain
    rw [certain' b tail]

/-- An error of the second phrase. -/
theorem Settles.blames (h : p.Settles L inner q) (between : Between M inner outer)
    (h' : q.Blames M outer e) : p.Blames (L * M) outer e := by
  obtain ⟨ts, consumed, mem, certain⟩ := h
  obtain ⟨ts', c, outlook, raises, ⟨more, viable⟩, refuted⟩ := h'
  rw [outlook] at certain
  refine ⟨ts ++ ts', c, ?_, raises, ⟨more, ?_⟩, fun phrase candidate => ?_⟩
  · rw [consumed.outlook, outlook, Outlook.behind_behind]
  · rw [List.map_append, List.append_assoc]
    exact Language.append_mem_mul mem viable
  · rw [List.map_append] at candidate
    obtain ⟨b, -, tail⟩ := candidate.second between certain
    exact refuted b tail

/-- An error of the first phrase: the second could still have come. -/
theorem Blames.mul (h : p.Blames L inner e) (between : Between M inner outer)
    (nonempty : ∃ ls, ls ∈ M) : p.Blames (L * M) outer e := by
  obtain ⟨ts, c, outlook, raises, ⟨more, viable⟩, refuted⟩ := h
  obtain ⟨ls, mem⟩ := nonempty
  refine ⟨ts, c, outlook, raises, ⟨more ++ ls, ?_⟩, fun phrase candidate => ?_⟩
  · rw [← List.append_assoc]
    exact Language.append_mem_mul viable mem
  · obtain ⟨a, candidate⟩ := candidate.first between
    exact refuted a candidate

/-- The rest of a phrase after its first token. -/
theorem Settles.after (yields : p.Yields t q) (inner : t.kind ≠ .finish)
    (same : ∀ ls, t.lexeme :: ls ∈ L ↔ ls ∈ M) (goesOn : [] ∈ L → ends t.kind = false)
    (h : q.Settles M ends r) : p.Settles L ends r := by
  obtain ⟨ts, consumed, mem, certain⟩ := h
  have first := yields.consumes inner
  refine ⟨t :: ts, ⟨?_, first.depth.trans consumed.depth⟩, (same _).mpr mem, fun phrase h => ?_⟩
  · rw [first.outlook, consumed.outlook, Outlook.behind_behind]
    rfl
  · obtain ⟨tail, rfl, candidate⟩ := h.rest same goesOn
    rw [certain tail candidate, List.map_cons]

theorem Blames.after (yields : p.Yields t q) (inner : t.kind ≠ .finish)
    (same : ∀ ls, t.lexeme :: ls ∈ L ↔ ls ∈ M) (goesOn : [] ∈ L → ends t.kind = false)
    (h : q.Blames M ends e) : p.Blames L ends e := by
  obtain ⟨ts, c, outlook, raises, ⟨more, viable⟩, refuted⟩ := h
  refine ⟨t :: ts, c, ?_, raises, ⟨more, (same _).mpr viable⟩, fun phrase h => ?_⟩
  · rw [(yields.consumes inner).outlook, outlook, Outlook.behind_behind]
    rfl
  · obtain ⟨tail, -, candidate⟩ := h.rest same goesOn
    exact refuted tail candidate

/-- Some tokens further on, what comes next there comes next after the tokens. -/
theorem Candidate.heads {c : Outlook} {phrase : List Lexeme} (outlook : p.outlook = c.behind ts)
    (h : Candidate L ends (ts.map Token.lexeme) c phrase) :
    ∃ more, p.outlook.Heads (phrase ++ more) := by
  obtain ⟨-, more, rest, -, same, heads⟩ := h
  exact ⟨more, by rw [outlook, same]; exact heads.behind⟩

/-- Of the phrases in `L`, only those in `M` begin with what comes next. -/
theorem Settles.narrow (within : ∀ ls ∈ M, ls ≠ [] → ls ∈ L)
    (others : ∀ ls ∈ L, ∀ more, p.outlook.Heads (ls ++ more) → ls ∈ M)
    (nil : [] ∈ M → [] ∈ L ∨ ∃ ls ∈ M, ls ≠ [] ∧ p.outlook.Heads ls) (h : p.Settles M ends q) :
    p.Settles L ends q := by
  obtain ⟨ts, consumed, mem, certain⟩ := h
  refine ⟨ts, consumed, ?_, fun phrase candidate => ?_⟩
  · by_cases empty : ts.map Token.lexeme = []
    · rw [empty] at mem certain ⊢
      rcases nil mem with mem | ⟨ls, mem, nonempty, heads⟩
      · exact mem
      · -- Nothing was taken, though something could have been.
        rw [consumed.outlook, List.map_eq_nil_iff.mp empty] at heads
        have candidate : Candidate M ends [] q.outlook ls :=
          ⟨mem, [], ls, follows_nil, List.append_nil ls, heads⟩
        exact absurd (certain ls candidate) nonempty
    · exact within _ mem empty
  · obtain ⟨more, heads⟩ := Candidate.heads consumed.outlook candidate
    exact certain phrase ⟨others phrase candidate.1 more heads, candidate.2⟩

theorem Blames.narrow (within : ∀ ls ∈ M, ls ≠ [] → ls ∈ L)
    (others : ∀ ls ∈ L, ∀ more, p.outlook.Heads (ls ++ more) → ls ∈ M)
    (nonempty : ∃ ls, ls ∈ L) (h : p.Blames M ends e) : p.Blames L ends e := by
  obtain ⟨ts, c, outlook, raises, ⟨more, viable⟩, refuted⟩ := h
  refine ⟨ts, c, outlook, raises, ?_, fun phrase candidate => ?_⟩
  · cases ts with
    | nil => exact nonempty
    | cons t ts => exact ⟨more, within _ viable (List.cons_ne_nil _ _)⟩
  · obtain ⟨more, heads⟩ := Candidate.heads outlook candidate
    exact refuted phrase ⟨others phrase candidate.1 more heads, candidate.2⟩

/-- A token that no phrase begins with, in the place of a phrase. -/
theorem Yields.blames (yields : p.Yields t q) (raises : p.outlook.Raises e)
    (nonempty : ∃ ls, ls ∈ L) (rejects : Rejects L ends t) : p.Blames L ends e := by
  refine ⟨[], p.outlook, rfl, raises, nonempty, ?_⟩
  rintro phrase ⟨mem, more, rest, further, same, heads⟩
  rw [List.map_nil, List.nil_append] at same
  subst same
  cases phrase with
  | nil =>
    obtain ⟨inner, goesOn⟩ := rejects.nil mem
    have next := yields.heads heads
    rw [if_neg inner, List.nil_append] at next
    obtain ⟨_, rfl⟩ := next
    rw [follows_cons, Token.kind_lexeme, goesOn] at further
    cases further
  | cons l ls =>
    obtain rfl := yields.heads_cons heads
    exact rejects.cons ls mem

/-- A quote that is never closed, in the place of a phrase. -/
theorem blames_of_fault {fault : UnclosedQuote} (outlook : p.outlook = ⟨[], .error fault⟩)
    (nonempty : ∃ ls, ls ∈ L) : p.Blames L ends (.unclosedQuote fault) := by
  refine ⟨[], p.outlook, rfl, ?_, nonempty, ?_⟩
  · rw [outlook]
    exact rfl
  · rintro phrase ⟨-, _, _, -, -, heads⟩
    rw [outlook] at heads
    exact heads

end Phrases

end Parser

namespace Parsing

open Run TreeQuery.Parser

variable {α β : Type} {p q : Parser} {t : Token} {ts : List Token} {ls : List Lexeme}
  {L M : Language Lexeme} {ends inner outer : TokenKind → Bool}

/-! ### Taking tokens -/

/-- Taking a token either gives the next one or meets the fault that stands in its place. -/
theorem next_yields (p : Parser) :
    Meets next p p.Yields fun e =>
      ∃ fault, e = .unclosedQuote fault ∧ p.outlook = ⟨[], .error fault⟩ := by
  intro result q ho
  simp only [next, outcome_ofOutcome] at ho
  cases held : p.handedBack with
  | some t =>
    rw [held] at ho
    cases ho
    exact ⟨rfl, ⟨rfl, rfl⟩, by simp only [Parser.outlook, held]⟩
  | none =>
    rw [held] at ho
    have start : p.outlook = p.scanner.outlook := by
      simp only [Parser.outlook, held]
    dsimp only at ho
    split at ho
    · next t s given =>
      cases ho
      have taken : p.scanner.next.1 = .ok t := by rw [given]
      refine ⟨rfl, ⟨rfl, rfl⟩, ?_⟩
      rw [start]
      split
      · next last => exact Scanner.outlook_of_finish taken last
      · next inner =>
        rw [Scanner.outlook_of_ok taken inner, given]
        rfl
    · next fault s given =>
      cases ho
      have taken : p.scanner.next.1 = .error fault := by rw [given]
      exact ⟨fault, rfl, start.trans (Scanner.outlook_of_error taken)⟩

/-- A token that is handed back where it was taken stands there again. -/
theorem unread_consumes (yields : p.Yields t q) {bad : ParseError → Prop} :
    Meets (unread t) q (fun _ q' => p.Consumes [] q') bad := by
  intro result q' ho
  simp only [unread, outcome_ofOutcome, yields.free] at ho
  cases ho
  refine ⟨?_, yields.depth.trans ⟨rfl, rfl⟩⟩
  rw [yields.outlook]
  simp only [Parser.outlook, yields.free]
  rfl

/-- Started at `q`, the run settles for a phrase that began at `p`, or blames what comes next. -/
def Examines (p q : Parser) (r : Parsing α) (L : Language Lexeme) (ends : TokenKind → Bool) :
    Prop :=
  Meets r q (fun _ q' => p.Settles L ends q') (p.Blames L ends)

section Rules

theorem examines_cutOff : Examines p q (.cutOff : Parsing α) L ends :=
  meets_cutOff

/-- Where nothing may come, nothing is taken. -/
theorem examines_pure {a : α} (mem : [] ∈ L) (only : ∀ ls ∈ L, ls = []) :
    Examines p p (pure a) L ends :=
  meets_pure ⟨[], ⟨rfl, .refl p⟩, mem, fun phrase candidate => only phrase candidate.1⟩

theorem examines_throw {e : ParseError} (yields : p.Yields t q) (raises : p.outlook.Raises e)
    (nonempty : ∃ ls, ls ∈ L) (rejects : Rejects L ends t) :
    Examines p q (throw e : Parsing α) L ends :=
  meets_throw (yields.blames raises nonempty rejects)

theorem examines_refuse {expected : Expectation} (yields : p.Yields t q)
    (nonempty : ∃ ls, ls ∈ L) (rejects : Rejects L ends t) :
    Examines p q (refuse t expected : Parsing α) L ends :=
  examines_throw yields (yields.raises_ofToken expected) nonempty rejects

theorem Examines.map {r : Parsing α} (h : Examines p q r L ends) (f : α → β) :
    Examines p q (r >>= fun a => pure (f a)) L ends :=
  h.bind fun _ _ settled => meets_pure settled

/-- One phrase after the other. -/
theorem Examines.bind {r : Parsing α} {f : α → Parsing β} (h : Examines p q r L inner)
    (between : Between M inner outer) (nonempty : ∃ ls, ls ∈ M)
    (hf : ∀ a q', q'.room = p.room → Examines q' q' (f a) M outer) :
    Examines p q (r >>= f) (L * M) outer := by
  have first : Meets r q (fun _ q' => p.Settles L inner q') (p.Blames (L * M) outer) :=
    h.imp (fun _ _ settled => settled) fun _ blamed => blamed.mul between nonempty
  refine Meets.bind first fun a q' settled => ?_
  exact (hf a q' settled.room).imp (fun _ _ settled' => settled.trans between settled')
    fun _ blamed => settled.blames between blamed

/-- The same, where only an error of the second phrase is of interest. -/
theorem Examines.bind_blames {r : Parsing α} {f : α → Parsing β} (h : Examines p q r L inner)
    (between : Between M inner outer) (nonempty : ∃ ls, ls ∈ M)
    (hf : ∀ a q', q'.room = p.room → Meets (f a) q' (fun _ _ => True) (q'.Blames M outer)) :
    Meets (r >>= f) q (fun _ _ => True) (p.Blames (L * M) outer) := by
  have first : Meets r q (fun _ q' => p.Settles L inner q') (p.Blames (L * M) outer) :=
    h.imp (fun _ _ settled => settled) fun _ blamed => blamed.mul between nonempty
  refine Meets.bind first fun a q' settled => ?_
  exact (hf a q' settled.room).imp (fun _ _ _ => trivial)
    fun _ blamed => settled.blames between blamed

/-- The rest of a phrase after its first token. -/
theorem Examines.after {q' : Parser} {r : Parsing α} (yields : p.Yields t q)
    (inner : t.kind ≠ .finish) (same : ∀ ls, t.lexeme :: ls ∈ L ↔ ls ∈ M)
    (goesOn : [] ∈ L → ends t.kind = false) (h : Examines q q' r M ends) : Examines p q' r L ends :=
  h.imp (fun _ _ settled => settled.after yields inner same goesOn)
    fun _ blamed => blamed.after yields inner same goesOn

section Nonnil

variable (nonnil : [] ∉ L) (yields : p.Yields t q) (notLast : t.kind ≠ .finish)
include nonnil yields notLast

/-- The same, where no phrase may be missing. -/
theorem Examines.afterFirst {q' : Parser} {r : Parsing α}
    (same : ∀ ls, t.lexeme :: ls ∈ L ↔ ls ∈ M) (h : Examines q q' r M ends) :
    Examines p q' r L ends :=
  .after yields notLast same (fun mem => absurd mem nonnil) h

/-- A token that is a phrase on its own. -/
theorem examines_only {a : α} (same : ∀ ls, t.lexeme :: ls ∈ L ↔ ls = []) :
    Examines p q (pure a) L ends :=
  .afterFirst nonnil yields notLast (M := 1) same (examines_pure rfl fun _ mem => mem)

end Nonnil

/-- Of the phrases in `L`, only those in `M` begin with what comes next. -/
theorem Examines.narrow {r : Parsing α} (within : ∀ ls ∈ M, ls ≠ [] → ls ∈ L)
    (others : ∀ ls ∈ L, ∀ more, p.outlook.Heads (ls ++ more) → ls ∈ M)
    (nil : [] ∈ M → [] ∈ L ∨ ∃ ls ∈ M, ls ≠ [] ∧ p.outlook.Heads ls) (nonempty : ∃ ls, ls ∈ L)
    (h : Examines p q r M ends) : Examines p q r L ends :=
  h.imp (fun _ _ settled => settled.narrow within others nil)
    fun _ blamed => blamed.narrow within others nonempty

/-- At the place where a phrase began it can be examined as one that begins there. -/
theorem Examines.since {q' : Parser} {r : Parsing α} (consumed : p.Consumes [] q)
    (h : Examines q q' r L ends) : Examines p q' r L ends := by
  have outlook : p.outlook = q.outlook := consumed.outlook
  refine h.imp ?_ ?_
  · rintro a q'' ⟨ts, further, rest⟩
    exact ⟨ts, ⟨outlook.trans further.outlook, consumed.depth.trans further.depth⟩, rest⟩
  · rintro e ⟨ts, c, further, rest⟩
    exact ⟨ts, c, outlook.trans further, rest⟩

/-- Less may follow a phrase than what was provided for. -/
theorem Examines.mono {r : Parsing α} (weaker : ∀ kind, inner kind → outer kind)
    (h : Examines p q r L outer) : Examines p q r L inner := by
  have wider {seen phrase : List Lexeme} {c : Outlook}
      (candidate : Candidate L inner seen c phrase) : Candidate L outer seen c phrase := by
    obtain ⟨mem, more, rest, further, same⟩ := candidate
    exact ⟨mem, more, rest, further.mono weaker, same⟩
  refine h.imp ?_ ?_
  · rintro a q' ⟨ts, consumed, mem, certain⟩
    exact ⟨ts, consumed, mem, fun phrase candidate => certain phrase (wider candidate)⟩
  · rintro e ⟨ts, c, outlook, raises, viable, refuted⟩
    exact ⟨ts, c, outlook, raises, viable, fun phrase candidate => refuted phrase (wider candidate)⟩

theorem examines_next {f : Token → Parsing β} (nonempty : ∃ ls, ls ∈ L)
    (h : ∀ t q, p.Yields t q → Examines p q (f t) L ends) : Examines p p (next >>= f) L ends := by
  refine Meets.bind ((next_yields p).imp (fun _ _ yields => yields) ?_) h
  rintro e ⟨fault, rfl, outlook⟩
  exact blames_of_fault outlook nonempty

theorem examines_unread {f : Unit → Parsing β} (yields : p.Yields t q)
    (h : ∀ q', p.Consumes [] q' → Examines q' q' (f ()) L ends) :
    Examines p q (unread t >>= f) L ends :=
  (unread_consumes yields).bind fun _ q' consumed => Examines.since consumed (h q' consumed)

/-- A token that no phrase begins with, where the phrase may be missing. -/
theorem examines_unread_pure {a : α} (yields : p.Yields t q) (mem : [] ∈ L)
    (apart : ∀ ls, t.lexeme :: ls ∉ L) :
    Examines p q (unread t >>= fun _ => pure a) L ends := by
  refine (unread_consumes yields).bind fun _ q' consumed => ?_
  refine meets_pure ⟨[], consumed, mem, ?_⟩
  rintro phrase ⟨possible, more, rest, -, same, heads⟩
  have outlook : p.outlook = q'.outlook := consumed.outlook
  rw [List.map_nil, List.nil_append] at same
  rw [← outlook, ← same] at heads
  cases phrase with
  | nil => rfl
  | cons l ls =>
    obtain rfl := yields.heads_cons heads
    exact absurd possible (apart ls)

/-- A mapping may be opened if the limit is not reached yet. -/
theorem examines_enter {f : Unit → Parsing β} (yields : p.Yields t q) (inner : t.kind ≠ .finish)
    (nonempty : ∃ ls, ls ∈ L) (full : p.room = 0 → Rejects L ends t)
    (h : q.depth < q.maxDepth → Examines p { q with depth := q.depth + 1 } (f ()) L ends) :
    Examines p q (enter t.position >>= f) L ends := by
  intro result s ho
  rw [outcome_bind] at ho
  by_cases above : q.depth + 1 > q.maxDepth
  · simp only [enter, outcome_ofOutcome, if_pos above] at ho
    cases ho
    have room : p.room = 0 := by
      rw [← yields.depth.room, Parser.room]
      omega
    exact yields.blames (yields.raises inner trivial rfl) nonempty (full room)
  · simp only [enter, outcome_ofOutcome, if_neg above] at ho
    exact h (by omega) result s ho

/-- After a mapping was closed, as many are open as before it. -/
theorem Examines.leave {r : Parsing α} {f : α → β}
    (h : Examines { p with depth := p.depth + 1 } q r L ends) :
    Examines p q (r >>= fun a => leave >>= fun _ => pure (f a)) L ends := by
  refine Meets.bind h ?_
  rintro a q' ⟨ts, consumed, rest⟩
  have closed : p.Consumes ts { q' with depth := q'.depth - 1 } := by
    refine ⟨consumed.outlook, ?_, consumed.depth.maxDepth⟩
    rw [consumed.depth.depth, Nat.add_sub_cancel]
  have closing : Meets Parsing.leave q' (fun _ q'' => p.Settles L ends q'') (p.Blames L ends) :=
    meets_change ⟨ts, closed, rest⟩
  exact closing.bind fun _ _ settled => meets_pure settled

end Rules

end Parsing

end TreeQuery
