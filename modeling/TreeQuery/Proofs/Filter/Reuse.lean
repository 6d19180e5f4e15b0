import TreeQuery.Proofs.Grammar.Resemblance
import TreeQuery.Proofs.Grammar.Stopping

/-!
# Calling a parser again

A parser can be called again after it gave a filter, and after an error too. It goes on with the
token behind the last one it took. The mappings that were open where an earlier call failed are
still on its count, so a later call behaves like one of a new parser that has that much less room
for mappings. As long as no call failed inside of a mapping, it is as if the parser were new.

## Main definitions

* `Parser.Call`, `Parser.afterCalls` — calls of one parser, one after the other
* `Parser.fresh` — a new parser in front of what is left of a text

## Main statements

* `Parser.Ready.program_eq_fresh` — a call of a parser and a call of a new one
* `Parser.calls_inherit_depth` — what a call gives after any other calls
-/

namespace TreeQuery

namespace Parser

/-- The two ways to call a parser: for the chains of a program, or for one filter. -/
inductive Call where
  | program
  | filter
  deriving DecidableEq, Repr

/-- The parser after a call. -/
def Call.after : Call → Parser → Parser
  | program, p => p.program.2
  | filter, p => p.filter.2

/-- The parser after some calls. -/
def afterCalls (p : Parser) (calls : List Call) : Parser :=
  calls.foldl (fun p call => call.after p) p

/-- A new parser in front of what is left of a text. -/
def fresh (limit : Nat) (s : Scanner) : Parser := ⟨s, none, 0, limit⟩

variable {p q : Parser} {m : Nat} {calls : List Call} {call : Call}

/-! ### One call -/

/-- Both calls leave the same parser behind. -/
theorem Call.after_eq (call : Call) (p : Parser) : call.after p = p.program.2 := by
  cases call <;> rfl

theorem afterCalls_append_singleton :
    p.afterCalls (calls ++ [call]) = (p.afterCalls calls).program.2 := by
  rw [afterCalls, List.foldl_append, List.foldl_cons, List.foldl_nil, Call.after_eq]
  rfl

/-- No token waits to be taken again, and the limit is still the one that was set. -/
structure Ready (m : Nat) (p : Parser) : Prop where
  handedBack : p.handedBack = none
  maxDepth : p.maxDepth = m

/-- A call keeps a parser ready, whatever it gives. -/
theorem Ready.program (ready : p.Ready m) : p.program.2.Ready m := by
  cases outcome : p.program with
  | mk result q =>
    cases result with
    | ok chains =>
      have ends := ends_of_program outcome
      exact ⟨ends.free, ends.depth.maxDepth.trans ready.maxDepth⟩
    | error e =>
      obtain ⟨ts, c, stops⟩ := stops_of_program outcome
      exact ⟨stops.free, stops.maxDepth.trans ready.maxDepth⟩

theorem ready_afterCalls (ready : p.Ready m) (calls : List Call) :
    (p.afterCalls calls).Ready m := by
  induction calls using List.reverseRecOn with
  | nil => exact ready
  | append_singleton calls call ih =>
    rw [afterCalls_append_singleton]
    exact ih.program

/-- A parser and a new one that has as much room for mappings, side by side. -/
theorem Ready.resembles_fresh (ready : p.Ready m) :
    p.Resembles Eq m (m - p.depth) p.depth 0 (fresh (m - p.depth) p.scanner) := by
  refine ⟨Outlook.resembles_self (fun _ => rfl) _, ?_, (Nat.zero_add _).symm, rfl, ?_⟩
  · rw [ready.handedBack]
    exact .none
  · exact ⟨ready.maxDepth, rfl⟩

/-- A call gives what a call of a new parser gives that has as much room for mappings, but an error
names the parser's own limit. -/
theorem Ready.program_eq_fresh (ready : p.Ready m) : p.program.1 =
    (fresh (m - p.depth) p.scanner).program.1.mapError (·.withLimit m) := by
  have alike := resembles_program (Nat.le_refl _) ready.resembles_fresh
  generalize p.program = out at alike ⊢
  generalize (fresh (m - p.depth) p.scanner).program = out' at alike ⊢
  cases alike with
  | value => rfl
  | error same => exact congrArg Except.error same.eq_withLimit
  | tooDeep less => exact absurd less (Nat.lt_irrefl _)

theorem Ready.filter_eq_fresh (ready : p.Ready m) : p.filter.1 =
    (fresh (m - p.depth) p.scanner).filter.1.mapError (·.withLimit m) := by
  unfold filter
  rw [ready.program_eq_fresh]
  cases (fresh (m - p.depth) p.scanner).program.1 <;> rfl

theorem Ready.outlook (ready : p.Ready m) : p.outlook = p.scanner.outlook := by
  rw [Parser.outlook, ready.handedBack]

/-! ### Any calls -/

/-- What a call gives after any other calls. It gives what a new parser gives whose limit is lower
by the mappings that are still on the count; if there are none, the parser is as good as new. So a
mapping is too deep only if it is so together with those. A call that gives a filter leaves the
count as it was; one that fails leaves on it what is open where it stopped. -/
theorem calls_inherit_depth (m : Nat) (text : String) (calls : List Call) :
    let p := (ofText m text).afterCalls calls
    p.filter.1 = (fresh (m - p.depth) p.scanner).filter.1.mapError (·.withLimit m) ∧
      p.program.1 = (fresh (m - p.depth) p.scanner).program.1.mapError (·.withLimit m) ∧
      (p.depth = 0 → p = fresh m p.scanner) ∧
      (∀ limit position, p.program.1 = .error (.tooDeep limit position) → limit = m ∧
        ∃ t, firstBeyond m p.depth p.scanner.ahead.1 = some t ∧ t.position = position) ∧
      (∀ chains, p.program.1 = .ok chains → p.program.2.depth = p.depth) ∧
      ∀ e, p.program.1 = .error e → ∃ ts, ∃ c : Outlook, p.scanner.outlook = c.behind ts ∧
        c.Raises e ∧ p.program.2.depth = levelBehind p.depth ts + e.opened := by
  intro p
  have new : (ofText m text).Ready m := ⟨rfl, rfl⟩
  have ready : p.Ready m := ready_afterCalls new calls
  refine ⟨ready.filter_eq_fresh, ready.program_eq_fresh, fun none => ?_,
    fun limit position deep => ?_, fun chains parsed => ?_, fun e failed => ?_⟩
  · generalize p = q at none ready
    obtain ⟨s, held, depth, maxDepth⟩ := q
    obtain ⟨rfl, rfl⟩ := ready
    cases none
    rfl
  · have brace := exists_brace_of_tooDeep deep
    rw [ready.maxDepth, ready.outlook] at brace
    exact brace
  · exact (ends_of_program (Prod.ext parsed rfl : p.program = (_, p.program.2))).depth.depth
  · obtain ⟨ts, c, stops⟩ :=
      stops_of_program (Prod.ext failed rfl : p.program = (_, p.program.2))
    exact ⟨ts, c, ready.outlook.symm.trans stops.outlook, stops.raises, stops.depth⟩

/-- An error in a mapping leaves it on the count: one level deep, the next mapping is refused,
though a new parser with the same limit would read it. -/
theorem not_forall_filter_eq_fresh :
    (¬ ∀ m text calls, ((ofText m text).afterCalls calls).filter.1 =
      (fresh m ((ofText m text).afterCalls calls).scanner).filter.1) ∧
    ¬ ∀ m text calls limit position,
      ((ofText m text).afterCalls calls).filter.1 = .error (.tooDeep limit position) →
        firstBeyond m 0 ((ofText m text).afterCalls calls).scanner.ahead.1 ≠ none := by
  have refused : ((ofText 1 "\x7b]\x7b\x7d").afterCalls [.filter]).filter.1.map (fun _ => ()) =
      .error (.tooDeep 1 ⟨1, 3, 2⟩) := by decide +kernel
  have read : (fresh 1 ((ofText 1 "\x7b]\x7b\x7d").afterCalls [.filter]).scanner).filter.1.map
      (fun _ => ()) = .ok () := by decide +kernel
  have shallow : firstBeyond 1 0
      ((ofText 1 "\x7b]\x7b\x7d").afterCalls [.filter]).scanner.ahead.1 = none := by decide +kernel
  constructor
  · intro always
    have same := always 1 "\x7b]\x7b\x7d" [.filter]
    rw [same, read] at refused
    cases refused
  · intro always
    cases outcome : ((ofText 1 "\x7b]\x7b\x7d").afterCalls [.filter]).filter.1 with
    | ok f =>
      rw [outcome] at refused
      cases refused
    | error e =>
      rw [outcome] at refused
      cases refused
      exact always 1 _ _ _ _ outcome shallow

end Parser

end TreeQuery
