import TreeQuery.Evaluation.Allowance
import TreeQuery.Proofs.Evaluation.Settled
import TreeQuery.Proofs.Grammar.Joining
import TreeQuery.Proofs.Run.InTurn
import TreeQuery.Query

/-!
# Groups and mappings one after the other

The members of a group and the entries of a mapping share the streams of their input. They come to
the same as if each were a query of its own and the queries were run one after the other: a member
finds the host as the member before it left it, all streams of that member's result drained.

## Main statements

* `Query.apply_intercalate_iff` — several chains as one query are several queries in turn
* `Evaluation.eval_mapping_iff` — the entries of a mapping are evaluated in turn
-/

namespace TreeQuery

open Run

namespace Query

variable {h h' : Host} {v : Value}

theorem steady_run (f : Filter) (v : Value) : Steady fun n => run n f v :=
  Steady.bind (fun _ _ le => Evaluation.eval_extendedBy le f v)
    fun _ _ _ le => Evaluation.settle_extendedBy le _

/-- A query gives a settled value. -/
theorem settled_of_reaches {f : Filter} {v w : Value} {h h' : Host}
    (reached : Reaches (fun n => run n f v) h (.ok w) h') : w.Settled := by
  obtain ⟨n, ho⟩ := reached
  exact meets_any.bind (fun _ _ _ => Evaluation.settle_meets n _ _) _ _ ho

end Query

namespace Evaluation

variable {v : Value} {h h' : Host} {result : Except EvalError Value}

theorem eval_group (noLink : v.kind ≠ .link) (noStream : v.kind ≠ .stream) (n : Nat)
    (members : List Filter) :
    eval (n + 1) (.group members) v = do
      return .array (← members.mapM fun member => Query.run n member v) := by
  cases v <;> first | exact absurd rfl noLink | exact absurd rfl noStream | rfl

theorem eval_mapping (noLink : v.kind ≠ .link) (noStream : v.kind ≠ .stream) (n : Nat)
    (entries : List (String × Filter)) :
    eval (n + 1) (.mapping entries) v = do
      return .ofMembers (← entries.mapM fun entry => do
        return (entry.1, ← Query.run n entry.2 v)) := by
  have each : (fun entry : String × Filter =>
      (do return (entry.1, ← Query.run n entry.2 v) : Evaluation (String × Value))) =
      fun entry => do return (entry.1, ← settle n (← eval n entry.2 v)) := by
    funext entry
    simp only [Query.run, bind_assoc]
  rw [each]
  cases v <;> first | exact absurd rfl noLink | exact absurd rfl noStream | rfl

/-- The members of a group are queries that are run in turn. -/
theorem reaches_eval_group (noLink : v.kind ≠ .link) (noStream : v.kind ≠ .stream)
    {members : List Filter} :
    Reaches (fun n => eval n (.group members) v) h result h' ↔
      ∃ results, InTurn (fun member n => Query.run n member v) members h results h' ∧
        result = results.map .array := by
  rw [← reaches_succ (steady_eval _ v)]
  simp only [eval_group noLink noStream, reaches_map,
    inTurn_iff fun member => Query.steady_run member v]

/-- The entries of a mapping are queries that are run in turn. -/
theorem reaches_eval_mapping (noLink : v.kind ≠ .link) (noStream : v.kind ≠ .stream)
    {entries : List (String × Filter)} :
    Reaches (fun n => eval n (.mapping entries) v) h result h' ↔
      ∃ given, InTurn (fun entry n => do return (entry.1, ← Query.run n entry.2 v))
          entries h given h' ∧ result = given.map .ofMembers := by
  rw [← reaches_succ (steady_eval _ v)]
  have steady (entry : String × Filter) : Steady fun n =>
      (do return (entry.1, ← Query.run n entry.2 v) : Evaluation (String × Value)) :=
    (Query.steady_run entry.2 v).bind fun _ => steady_const _
  simp only [eval_mapping noLink noStream, reaches_map, inTurn_iff steady]

end Evaluation

namespace Query

/-- What the members of a group give is settled already. -/
theorem reaches_run_group {v : Value} (noLink : v.kind ≠ .link) (noStream : v.kind ≠ .stream)
    {members : List Filter} {h h' : Host} {result : Except EvalError Value} :
    Reaches (fun n => run n (.group members) v) h result h' ↔
      ∃ results, InTurn (fun member n => run n member v) members h results h' ∧
        result = results.map .array := by
  have steady := Evaluation.steady_eval (.group members) v
  have settling := Evaluation.steady_settle
  unfold run
  rw [reaches_bind steady settling]
  simp only [Evaluation.reaches_eval_group noLink noStream]
  constructor
  · rintro (⟨e, ⟨results, turns, same⟩, rfl⟩ | ⟨w, mid, ⟨results, turns, same⟩, settles⟩)
    · exact ⟨results, turns, same⟩
    · cases results with
      | error e => cases same
      | ok ws =>
        cases same
        have settled := Value.settled_array (turns.forall_mem settled_of_reaches)
        obtain ⟨rfl, rfl⟩ := (Evaluation.reaches_settle_of_settled settled).mp settles
        exact ⟨_, turns, rfl⟩
  · rintro ⟨results, turns, rfl⟩
    cases results with
    | error e => exact .inl ⟨e, ⟨_, turns, rfl⟩, rfl⟩
    | ok ws =>
      have settled := Value.settled_array (turns.forall_mem settled_of_reaches)
      refine .inr ⟨_, _, ⟨_, turns, rfl⟩, ?_⟩
      exact (Evaluation.reaches_settle_of_settled settled).mpr ⟨rfl, rfl⟩

theorem apply_eq_run {maxDepth : Nat} {text : String} {f : Filter}
    (parsed : Filter.parse maxDepth text = .ok f) (n : Nat) (v : Value) :
    apply n maxDepth text v = (run n f v).mapError .evaluation := by
  unfold apply
  rw [parsed]

/-- A text that is no query fails before anything is looked at. -/
theorem apply_eq_throw {maxDepth : Nat} {text : String} {e : ParseError}
    (failed : Filter.parse maxDepth text = .error e) (n : Nat) (v : Value) :
    apply n maxDepth text v = throw (.parse e) := by
  unfold apply
  rw [failed]

theorem steady_apply (maxDepth : Nat) (text : String) (v : Value) :
    Steady fun n => apply n maxDepth text v := by
  unfold apply
  cases Filter.parse maxDepth text with
  | error e => exact steady_const _
  | ok f => exact (steady_run f v).mapError _

/-- Each text that is a chain has a filter. -/
theorem exists_chains {maxDepth : Nat} {texts : List String}
    (chains : ∀ text ∈ texts, ∃ f, Parser.IsChain maxDepth text f) :
    ∃ fs, List.Forall₂ (Parser.IsChain maxDepth) texts fs := by
  induction texts with
  | nil => exact ⟨[], .nil⟩
  | cons text texts ih =>
    obtain ⟨f, chain⟩ := chains text (List.mem_cons_self ..)
    obtain ⟨fs, rest⟩ := ih fun text' mem => chains text' (List.mem_cons_of_mem _ mem)
    exact ⟨f :: fs, .cons chain rest⟩

/-- Several chains as one query are several queries, run in turn. -/
theorem apply_intercalate_iff {maxDepth : Nat} {texts : List String} {v : Value}
    (noLink : v.kind ≠ .link) (noStream : v.kind ≠ .stream) (several : 2 ≤ texts.length)
    (chains : ∀ text ∈ texts, ∃ f, Parser.IsChain maxDepth text f) {h h' : Host}
    {result : Except QueryError Value} :
    Reaches (fun n => apply n maxDepth (", ".intercalate texts) v) h result h' ↔
      ∃ results, InTurn (fun text n => apply n maxDepth text v) texts h results h' ∧
        result = results.map .array := by
  obtain ⟨fs, chains⟩ := exists_chains chains
  have parsed := Filter.parse_intercalate chains several
  have each : List.Forall₂ (fun text f => ∀ n, apply n maxDepth text v =
      (run n f v).mapError .evaluation) texts fs :=
    chains.imp fun text f chain n => apply_eq_run chain.parse_eq n v
  simp only [apply_eq_run parsed, reaches_mapError, reaches_run_group noLink noStream,
    inTurn_mapError each]
  constructor
  · rintro ⟨_, ⟨results, turns, rfl⟩, rfl⟩
    refine ⟨_, ⟨results, turns, rfl⟩, ?_⟩
    cases results <;> rfl
  · rintro ⟨_, ⟨results, turns, rfl⟩, rfl⟩
    refine ⟨_, ⟨results, turns, rfl⟩, ?_⟩
    cases results <;> rfl

end Query

/-- Members and entries share one input, which is at hand, and come to the same as queries of their
own that are run one after the other on the same host: the same results, the same host with the same
log, and the first failure ends it. An object keeps the last of several values for one name, though
the others were found as well. -/
theorem Query.sequential {v : Value} (noLink : v.kind ≠ .link) (noStream : v.kind ≠ .stream)
    (h h' : Host) :
    (∀ maxDepth texts result, 2 ≤ texts.length →
        (∀ text ∈ texts, ∃ f, Parser.IsChain maxDepth text f) →
        (Reaches (fun n => apply n maxDepth (", ".intercalate texts) v) h result h' ↔
          ∃ results, InTurn (fun text n => apply n maxDepth text v) texts h results h' ∧
            result = results.map .array)) ∧
      (∀ entries result,
        Reaches (fun n => Evaluation.eval n (.mapping entries) v) h result h' ↔
          ∃ given, InTurn (fun entry n => do return (entry.1, ← run n entry.2 v))
              entries h given h' ∧ result = given.map .ofMembers) ∧
      ∀ given : List (String × Value), ∃ members, Value.ofMembers given = .object members ∧
        (members.map Prod.fst).Nodup ∧
        ∀ name, members.lookup name = given.reverse.lookup name := by
  refine ⟨?_, ?_, ?_⟩
  · intro maxDepth texts result several chains
    exact apply_intercalate_iff noLink noStream several chains
  · intro entries result
    exact Evaluation.reaches_eval_mapping noLink noStream
  · intro given
    exact ⟨_, rfl, nodup_names_collectMembers given, lookup_collectMembers given⟩

/-- Two queries for the one stream in an array: the second finds it as the first left it. -/
theorem Query.sequential_shared :
    (Value.array [.stream ⟨0⟩]).kind ≠ .link ∧ (Value.array [.stream ⟨0⟩]).kind ≠ .stream ∧
      ∃ h', Reaches (fun n => apply n 64 (", ".intercalate ["[0]", "[0]"]) (.array [.stream ⟨0⟩]))
        (Host.empty.addStream (.source ⟨"s", true, .listed [.element .null], 0⟩)).2
        (.ok (.array [.array [.null], .array []])) h' := by
  have chain : Parser.IsChain 64 "[0]" (.select (.index 0)) :=
    Parser.isChain_select_of_same (by decide +kernel)
  have chains : ∀ text ∈ ["[0]", "[0]"], ∃ f, Parser.IsChain 64 text f := by
    intro text mem
    simp only [List.mem_cons, List.not_mem_nil, or_false, or_self] at mem
    exact ⟨_, mem ▸ chain⟩
  have applied (n : Nat) (v : Value) := apply_eq_run chain.parse_eq n v
  have noLink : (Value.array [.stream ⟨0⟩]).kind ≠ .link := by decide
  have noStream : (Value.array [.stream ⟨0⟩]).kind ≠ .stream := by decide
  have first : Reaches (fun n => apply n 64 "[0]" (.array [.stream ⟨0⟩]))
      (Host.empty.addStream (.source ⟨"s", true, .listed [.element .null], 0⟩)).2
      (.ok (.array [.null]))
      ⟨#[], #[⟨.source ⟨"s", true, .listed [], 1⟩, false⟩], [],
        #[.pull ⟨0⟩ 0 none, .exhausted ⟨0⟩]⟩ := by
    simp only [applied]
    exact ⟨6, rfl⟩
  have second : Reaches (fun n => apply n 64 "[0]" (.array [.stream ⟨0⟩]))
      ⟨#[], #[⟨.source ⟨"s", true, .listed [], 1⟩, false⟩], [],
        #[.pull ⟨0⟩ 0 none, .exhausted ⟨0⟩]⟩
      (.ok (.array []))
      ⟨#[], #[⟨.source ⟨"s", true, .listed [], 1⟩, false⟩], [],
        #[.pull ⟨0⟩ 0 none, .exhausted ⟨0⟩, .exhausted ⟨0⟩]⟩ := by
    simp only [applied]
    exact ⟨6, rfl⟩
  have inTurn {query : String → Nat → Run Host QueryError Value} {h₀ h₁ h₂ : Host} {a b : Value}
      (first : Reaches (query "[0]") h₀ (.ok a) h₁) (second : Reaches (query "[0]") h₁ (.ok b) h₂) :
      InTurn query ["[0]", "[0]"] h₀ (.ok [a, b]) h₂ :=
    .value first (.value second (.nil _))
  obtain ⟨h', turns⟩ : ∃ h', InTurn (fun text n => apply n 64 text (.array [.stream ⟨0⟩]))
      ["[0]", "[0]"] _ (.ok [.array [.null], .array []]) h' := ⟨_, inTurn first second⟩
  have several : 2 ≤ ["[0]", "[0]"].length := by decide
  have sequence (h : Host) := (sequential noLink noStream h h').1 64 _
    (.ok (.array [.array [.null], .array []])) several chains
  exact ⟨noLink, noStream, h', (sequence _).mpr ⟨_, turns, rfl⟩⟩

end TreeQuery
