import TreeQuery.Filter.Production
import TreeQuery.Proofs.Run.Meets
import TreeQuery.Proofs.Token.Ahead

/-!
# What a parser reads

A token that was handed back comes first, then those of the scanner. To a production it makes no
difference which of the two a token is, so parsers are looked at through the lexemes that they still
have before them. This module says what taking a token and handing it back do to that view.

## Main definitions

* `Parser.view` — the lexemes still to come, and the fault after them
* `Parser.room` — how many further mappings may be opened
* `Parser.Passes` — from one parser to another, some lexemes further on

## Main statements

* `Parsing.next_meets`, `Parsing.unread_meets` — taking a token and handing it back
* `Parsing.next_meets_of_cons`, `Parsing.next_meets_of_nil` — which token that is
-/

namespace TreeQuery

namespace Parser

/-- The lexemes that are still to come, the one handed back first, and the fault in place of the
end. -/
def view (p : Parser) : List Lexeme × Option UnclosedQuote :=
  let rest := (p.scanner.ahead.1.map Token.lexeme, p.scanner.ahead.2)
  match p.handedBack with
  | none => rest
  | some t => if t.kind = .finish then ([], none) else (t.lexeme :: rest.1, rest.2)

/-- How many mappings may be opened inside each other from here. -/
def room (p : Parser) : Nat := p.maxDepth - p.depth

/-- The parsers count the same open mappings towards the same limit. -/
structure SameDepth (p q : Parser) : Prop where
  depth : q.depth = p.depth
  maxDepth : q.maxDepth = p.maxDepth

/-- The second parser stands some lexemes further on than the first, with as many mappings open. -/
structure Passes (p : Parser) (ls : List Lexeme) (q : Parser) : Prop where
  view : p.view = (ls ++ q.view.1, q.view.2)
  depth : SameDepth p q

/-- The second parser is the first after it gave the token `t`, and has room for a token. -/
structure Takes (p : Parser) (t : Token) (q : Parser) : Prop where
  free : q.handedBack = none
  depth : SameDepth p q
  view : p.view = if t.kind = .finish then ([], none) else (t.lexeme :: q.view.1, q.view.2)

theorem SameDepth.refl (p : Parser) : SameDepth p p := ⟨rfl, rfl⟩

theorem SameDepth.trans {p q r : Parser} (h : SameDepth p q) (h' : SameDepth q r) :
    SameDepth p r :=
  ⟨h'.depth.trans h.depth, h'.maxDepth.trans h.maxDepth⟩

theorem SameDepth.room {p q : Parser} (h : SameDepth p q) : q.room = p.room := by
  rw [Parser.room, Parser.room, h.depth, h.maxDepth]

theorem Passes.trans {p q r : Parser} {ls ls' : List Lexeme} (h : Passes p ls q)
    (h' : Passes q ls' r) : Passes p (ls ++ ls') r := by
  refine ⟨?_, h.depth.trans h'.depth⟩
  rw [h.view, h'.view, List.append_assoc]

theorem Passes.room {p q : Parser} {ls : List Lexeme} (h : Passes p ls q) : q.room = p.room :=
  h.depth.room

/-- What is still to come after some lexemes was still to come before them. -/
theorem Passes.mem {p q : Parser} {ls : List Lexeme} (h : Passes p ls q) {l : Lexeme}
    (mem : l ∈ q.view.1) : l ∈ p.view.1 := by
  rw [h.view]
  exact List.mem_append_right ls mem

/-- A token before the end is a lexeme further on. -/
theorem Takes.passes {p q : Parser} {t : Token} (h : Takes p t q) (inner : t.kind ≠ .finish) :
    Passes p [t.lexeme] q := by
  refine ⟨?_, h.depth⟩
  rw [h.view, if_neg inner]
  rfl

theorem Takes.view_of_finish {p q : Parser} {t : Token} (h : Takes p t q)
    (last : t.kind = .finish) : p.view = ([], none) := by
  rw [h.view, if_pos last]

end Parser

namespace Parsing

open Run TreeQuery.Parser

variable {bad : ParseError → Prop}

/-- Taking a token either gives the next lexeme or meets the fault that stands in its place. -/
theorem next_meets (p : Parser) :
    Meets next p (Takes p) fun e =>
      ∃ fault, e = .unclosedQuote fault ∧ p.view = ([], some fault) := by
  intro result q ho
  simp only [next, outcome_ofOutcome] at ho
  -- A token that has been handed back is ahead of the text.
  cases held : p.handedBack with
  | some t =>
    rw [held] at ho
    cases ho
    refine ⟨rfl, ⟨rfl, rfl⟩, ?_⟩
    simp only [view, held]
  | none =>
    rw [held] at ho
    have start : p.view = (p.scanner.ahead.1.map Token.lexeme, p.scanner.ahead.2) := by
      simp only [view, held]
    dsimp only at ho
    split at ho
    · next t s given =>
      cases ho
      have taken : p.scanner.next.1 = .ok t := by rw [given]
      have after : p.scanner.next.2 = s := by rw [given]
      refine ⟨rfl, ⟨rfl, rfl⟩, ?_⟩
      rw [start]
      by_cases last : t.kind = .finish
      · rw [if_pos last, Scanner.ahead_of_finish taken last]
        rfl
      · rw [if_neg last, Scanner.ahead_of_ok taken last, after]
        rfl
    · next fault s given =>
      cases ho
      have taken : p.scanner.next.1 = .error fault := by rw [given]
      refine ⟨fault, rfl, ?_⟩
      rw [start, Scanner.ahead_of_error taken]
      rfl

/-- The token that is taken is the one for the next lexeme. -/
theorem next_meets_of_cons {p : Parser} {l : Lexeme} {ls : List Lexeme}
    (view : p.view = (l :: ls, none)) :
    Meets next p (fun t q => p.Takes t q ∧ t.lexeme = l ∧ q.view = (ls, none)) bad := by
  refine (next_meets p).imp (fun t q taken => ?_) ?_
  · have same := taken.view
    rw [view] at same
    split at same
    · cases same
    · simp only [Prod.mk.injEq, List.cons.injEq] at same
      obtain ⟨⟨rfl, rest⟩, none⟩ := same
      exact ⟨taken, rfl, Prod.ext rest.symm none.symm⟩
  · rintro e ⟨fault, -, here⟩
    rw [view] at here
    cases here

/-- The token that is taken is the one at the end of the text. -/
theorem next_meets_of_nil {p : Parser} (view : p.view = ([], none)) :
    Meets next p (fun t q => p.Takes t q ∧ t.kind = .finish) bad := by
  refine (next_meets p).imp (fun t q taken => ?_) ?_
  · have same := taken.view
    rw [view] at same
    split at same
    · next last => exact ⟨taken, last⟩
    · cases same
  · rintro e ⟨fault, -, here⟩
    rw [view] at here
    cases here

/-- A token that is handed back where it was taken stands there again. -/
theorem unread_meets {p q : Parser} {t : Token} (taken : Takes p t q) :
    Meets (unread t) q (fun _ q' => Passes p [] q') bad := by
  intro result q' ho
  simp only [unread, outcome_ofOutcome, taken.free] at ho
  cases ho
  refine ⟨?_, taken.depth.trans ⟨rfl, rfl⟩⟩
  have back : q.view = (q.scanner.ahead.1.map Token.lexeme, q.scanner.ahead.2) := by
    simp only [view, taken.free]
  rw [taken.view, back]
  simp only [view]
  split <;> rfl

end Parsing

end TreeQuery
