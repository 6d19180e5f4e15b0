import Mathlib.Data.List.Induction
import TreeQuery.Proofs.Evaluation.Stages
import TreeQuery.Proofs.Query.Closed

/-!
# Chains with a bar between them

Two chains with a bar between them are one chain, made of the stages of the first and the stages of
the second. A chain of one stage is that stage, and no stage is a pipe, so the stages of a chain can
be read off from its filter. Applying the stages of both is applying the one filter and then the
other. On closed data, where settling has nothing to do, this is one query after the other.

## Main statements

* `Grammar.Chain.separated_stages` — the stages of a chain are its sums
* `Filter.parse_append_pipe` — the text of two chains with a bar between them
* `Evaluation.reaches_eval_pipe_append` — the stages of two filters
* `Query.pipes_compose` — two queries with a bar between them
-/

namespace TreeQuery

namespace Grammar

variable {α : Type} {separator : TokenKind} {depth : Nat} {ls ls' : List Lexeme} {f : Filter}

/-! ### The stages of a chain -/

/-- Phrases and a separator may stand in front of others. -/
theorem Separated.append {Phrase : List Lexeme → α → Prop} {l : Lexeme} {as bs : List α}
    (h : Separated separator Phrase ls as) (between : l.kind = separator)
    (h' : Separated separator Phrase ls' bs) :
    Separated separator Phrase (ls ++ l :: ls') (as ++ bs) := by
  obtain ⟨first, rest⟩ := h
  rw [List.append_assoc]
  refine .intro first ?_
  clear first
  -- By induction on the phrases behind the first one.
  induction rest with
  | nil =>
    obtain ⟨first', rest'⟩ := h'
    exact .cons between first' rest'
  | cons between' phrase _ ih =>
    rw [List.cons_append, List.append_assoc]
    exact .cons between' phrase ih

theorem Separated.ne_nil {Phrase : List Lexeme → α → Prop} {as : List α}
    (h : Separated separator Phrase ls as) : as ≠ [] := by
  cases h
  exact List.cons_ne_nil _ _

/-- Operands on their own stay what they are, and an operation is a single stage. -/
theorem LeftNested.stages_eq {op : Operator} {fs : List Filter} (h : LeftNested op fs f)
    (each : ∀ g ∈ fs, g.stages = [g]) : f.stages = [f] := by
  obtain ⟨first, rest⟩ := h
  cases rest using List.reverseRecOn with
  | nil => exact each first (List.mem_singleton.mpr rfl)
  | append_singleton rest last =>
    -- The last operand stands on top, so the filter is an operation.
    rw [List.foldl_concat]
    rfl

theorem Trailing.forall_mem {Phrase : List Lexeme → α → Prop} {as : List α} {p : α → Prop}
    (h : Trailing separator Phrase ls as) (each : ∀ ls a, Phrase ls a → p a) : ∀ a ∈ as, p a := by
  induction h with
  | nil => exact fun _ mem => nomatch mem
  | cons _ phrase _ ih => exact List.forall_mem_cons.mpr ⟨each _ _ phrase, ih⟩

theorem Separated.forall_mem {Phrase : List Lexeme → α → Prop} {as : List α} {p : α → Prop}
    (h : Separated separator Phrase ls as) (each : ∀ ls a, Phrase ls a → p a) : ∀ a ∈ as, p a := by
  obtain ⟨first, rest⟩ := h
  exact List.forall_mem_cons.mpr ⟨each _ _ first, rest.forall_mem each⟩

theorem Operand.stages_eq (h : Operand (MappingWithin depth) ls f) : f.stages = [f] := by
  cases h with
  | selectors selectors =>
    obtain ⟨-, steps, -, path⟩ := selectors
    cases path <;> rfl
  | literal literal => cases literal <;> rfl
  | mapping mapping =>
    cases depth with
    | zero => exact mapping.elim
    | succ depth => cases mapping <;> rfl

/-- A sum is a single stage: there are no parentheses in the grammar. -/
theorem Sum.stages_eq (h : Sum (MappingWithin depth) ls f) : f.stages = [f] := by
  obtain ⟨gs, products, sum⟩ := h
  refine sum.stages_eq (products.forall_mem fun _ g product => ?_)
  obtain ⟨operands, phrases, join⟩ := product
  exact join.stages_eq (phrases.forall_mem fun _ _ operand => operand.stages_eq)

/-- The stages of a chain are its sums. -/
theorem Chain.separated_stages (h : Chain depth ls f) :
    Separated .pipe (Sum (MappingWithin depth)) ls f.stages := by
  obtain ⟨fs, sums, collapsed⟩ := h
  cases collapsed with
  | one =>
    -- A sum on its own is no pipe, so it is its only stage.
    obtain ⟨first, ⟨⟩⟩ := sums
    rw [Sum.stages_eq first]
    exact .intro first .nil
  | several => exact sums

end Grammar

/-! ### The text of two chains -/

section

open TreeQuery.Parser Spelling

variable {maxDepth : Nat} {text text' : String} {f g : Filter}

theorem Parser.IsChain.stages_ne_nil (chain : IsChain maxDepth text f) : f.stages ≠ [] := by
  obtain ⟨ls, -, phrase⟩ := chain.exists_spells
  exact phrase.separated_stages.ne_nil

/-- Two chains with a bar between them are parsed as the stages of both. -/
theorem Filter.parse_append_pipe (chain : IsChain maxDepth text f)
    (chain' : IsChain maxDepth text' g) :
    parse maxDepth (text ++ " | " ++ text') = .ok (.pipe (f.stages ++ g.stages)) := by
  obtain ⟨ls, spelled, phrase⟩ := chain.exists_spells
  obtain ⟨ls', spelled', phrase'⟩ := chain'.exists_spells
  have seam : seen " | " = [' ', '|', ' '] := by decide
  -- The blank in front keeps the last run of the first text from going on.
  have blank : isBlank ' ' := by decide
  have bar : TokenKind.ofChar? '|' = some .pipe := rfl
  have between := Spells.blank blank (.punctuation bar (.blank blank spelled'))
  have whole : Spells (seen (text ++ " | " ++ text')) (ls ++ ⟨.pipe, "|"⟩ :: ls') := by
    rw [seen_append, seen_append, seam, List.append_assoc]
    exact spelled.append between (breaks_of_blank blank)
  have stages := phrase.separated_stages.append (l := ⟨.pipe, "|"⟩) rfl phrase'.separated_stages
  have several : 2 ≤ (f.stages ++ g.stages).length := by
    have first := List.length_pos_of_ne_nil chain.stages_ne_nil
    have second := List.length_pos_of_ne_nil chain'.stages_ne_nil
    rw [List.length_append]
    omega
  refine parse_eq_ok_iff_spells.mpr ⟨_, whole, [.pipe (f.stages ++ g.stages)], ?_, .one _⟩
  have joined : Grammar.Chain maxDepth _ _ := ⟨_, stages, Grammar.collapsed_of_two_le several⟩
  have alone : Grammar.Separated .comma (Grammar.Chain maxDepth) _ _ := .intro joined .nil
  simpa using alone

end

namespace Evaluation

open Run

variable {f g : Filter} {v : Value} {h h' : Host}

theorem through_append (fs gs : List Filter) (v : Value) (n : Nat) :
    through (fs ++ gs) v n = through fs v n >>= fun w => through gs w n :=
  List.foldlM_append

/-- The stages of two filters one after the other are the two filters one after the other. -/
theorem reaches_eval_pipe_append (nonempty : f.stages ≠ []) (nonempty' : g.stages ≠ [])
    {result : Except EvalError Value} :
    Reaches (fun n => eval n (.pipe (f.stages ++ g.stages)) v) h result h' ↔
      Reaches (fun n => eval n f v >>= eval n g) h result h' := by
  have stages : Reaches (fun n => eval n (.pipe (f.stages ++ g.stages)) v) h result h' ↔
      Reaches (fun n => through f.stages v n >>= fun w => through g.stages w n) h result h' := by
    simp only [← through_append]
    generalize f.stages = fs at nonempty
    cases fs with
    | nil => exact absurd rfl nonempty
    | cons first rest => exact reaches_eval_pipe
  rw [stages, reaches_bind (steady_through _ v) (steady_through _),
    reaches_bind (steady_eval f v) (steady_eval g)]
  simp only [reaches_through_stages nonempty, reaches_through_stages nonempty']

end Evaluation

namespace Query

open Evaluation Run

variable {maxDepth : Nat} {text text' : String} {f g : Filter}

/-- The text of two chains with a bar between them is parsed as one chain, of the stages of the
first and then of the second. On a closed value it comes to what the two queries come to, one after
the other: where the first fails, the whole fails with that, and else the second one is applied to
its result and decides. Each of them comes to an end. -/
theorem pipes_compose (chain : Parser.IsChain maxDepth text f)
    (chain' : Parser.IsChain maxDepth text' g) :
    Filter.parse maxDepth (text ++ " | " ++ text') = .ok (.pipe (f.stages ++ g.stages)) ∧
      ∀ (v : Value) (h : Host), v.isClosed = true →
        ∃ first, Reaches (fun n => apply n maxDepth text v) h first h ∧
          match first with
          | .error e =>
            Reaches (fun n => apply n maxDepth (text ++ " | " ++ text') v) h (.error e) h
          | .ok w => ∃ result, Reaches (fun n => apply n maxDepth text' w) h result h ∧
            Reaches (fun n => apply n maxDepth (text ++ " | " ++ text') v) h result h := by
  have parsed := Filter.parse_append_pipe chain chain'
  refine ⟨parsed, fun v h closed => ?_⟩
  have whole {result : Except EvalError Value}
      (reached : Reaches (fun n => eval n f v >>= eval n g) h result h) :
      Reaches (fun n => apply n maxDepth (text ++ " | " ++ text') v) h
        (result.mapError .evaluation) h := by
    have piped := (reaches_eval_pipe_append chain.stages_ne_nil chain'.stages_ne_nil).mpr reached
    exact (reaches_apply_of_isClosed parsed closed).mpr ⟨result, piped, rfl⟩
  obtain ⟨first, evaluates, -, closed'⟩ := exists_reaches_eval closed f h
  have applies := (reaches_apply_of_isClosed chain.parse_eq closed).mpr ⟨first, evaluates, rfl⟩
  refine ⟨_, applies, ?_⟩
  cases first with
  | error e =>
    have stops := (reaches_bind (steady_eval f v) (steady_eval g)).mpr (.inl ⟨e, evaluates, rfl⟩)
    exact whole stops
  | ok w =>
    obtain ⟨result, evaluates', -⟩ := exists_reaches_eval (closed' w rfl) g h
    have applies' :=
      (reaches_apply_of_isClosed chain'.parse_eq (closed' w rfl)).mpr ⟨result, evaluates', rfl⟩
    exact ⟨_, applies', whole (evaluates.bind evaluates' (steady_eval f v) (steady_eval g w))⟩

/-- The first item of the first item, and a first item without one of its own. -/
theorem pipes_compose_items :
    Parser.IsChain 64 "[0]" (.select (.index 0)) ∧
      Filter.parse 64 ("[0]" ++ " | " ++ "[0]") =
        .ok (.pipe [.select (.index 0), .select (.index 0)]) ∧
      Reaches (fun n => apply n 64 ("[0]" ++ " | " ++ "[0]") (.array [.array [.null]])) .empty
        (.ok .null) .empty ∧
      Reaches (fun n => apply n 64 ("[0]" ++ " | " ++ "[0]") (.array [])) .empty
        (.error (.evaluation (.indexOutOfRange 0 0))) .empty := by
  have chain : Parser.IsChain 64 "[0]" (.select (.index 0)) :=
    Parser.isChain_select_of_same (by decide +kernel)
  have applied {v : Value} {result : Except EvalError Value} (closed : v.isClosed = true)
      (evaluates : Reaches (fun n => eval n (.select (.index 0)) v) .empty result .empty) :
      Reaches (fun n => apply n 64 "[0]" v) .empty (result.mapError .evaluation) .empty :=
    (reaches_apply_of_isClosed chain.parse_eq closed).mpr ⟨result, evaluates, rfl⟩
  obtain ⟨parsed, composed⟩ := pipes_compose chain chain
  refine ⟨chain, parsed, ?_, ?_⟩
  · obtain ⟨first, applies, joined⟩ := composed (.array [.array [.null]]) .empty rfl
    obtain ⟨rfl, -⟩ := (applied rfl ⟨2, rfl⟩).unique applies (steady_apply 64 "[0]" _)
    obtain ⟨second, applies', joined⟩ := joined
    obtain ⟨rfl, -⟩ := (applied rfl ⟨2, rfl⟩).unique applies' (steady_apply 64 "[0]" _)
    exact joined
  · obtain ⟨first, applies, joined⟩ := composed (.array []) .empty rfl
    obtain ⟨rfl, -⟩ := (applied rfl ⟨2, rfl⟩).unique applies (steady_apply 64 "[0]" _)
    exact joined

end Query

end TreeQuery
