import Mathlib.Data.List.Forall2
import TreeQuery.Proofs.Grammar.Parse

/-!
# Chains with commas between them

Texts that are chains, each on its own, are a program when they are put together with commas between
them.

## Main definitions

* `Parser.IsChain` — a text is one chain and nothing else

## Main statements

* `Filter.parse_intercalate` — several chains are parsed as a group
-/

namespace TreeQuery

/-- The text is one chain, which stands for the filter. -/
def Parser.IsChain (maxDepth : Nat) (text : String) (f : Filter) : Prop :=
  (ofText maxDepth text).program.1 = .ok (f, [])

namespace Parser

variable {maxDepth : Nat} {text : String} {f : Filter}

theorem IsChain.parse_eq (h : IsChain maxDepth text f) : Filter.parse maxDepth text = .ok f := by
  unfold IsChain at h
  unfold Filter.parse Parser.filter
  rw [h]
  rfl

/-- Whether a text is a chain of one step can be computed. -/
theorem isChain_select_of_same {s : Selector}
    (found : ((ofText maxDepth text).program.1.toOption.any fun filters =>
      filters.1.same (.select s) && filters.2.isEmpty) = true) :
    IsChain maxDepth text (.select s) := by
  unfold IsChain
  revert found
  generalize (ofText maxDepth text).program.1 = out
  intro found
  cases out with
  | error e => cases found
  | ok filters =>
    obtain ⟨f, rest⟩ := filters
    rw [Except.toOption, Option.any_some, Bool.and_eq_true, List.isEmpty_iff] at found
    obtain ⟨same, rfl⟩ := found
    cases f with
    | select s =>
      rw [Filter.same, beq_iff_eq] at same
      rw [same]
    | _ => cases same

theorem IsChain.exists_spells (h : IsChain maxDepth text f) :
    ∃ ls, Spells (seen text) ls ∧ Grammar.Chain maxDepth ls f := by
  have met := (ofText maxDepth text).program_met fun n =>
    Parsing.program_meets n _ (readable_ofText maxDepth text)
  unfold IsChain at h
  rw [h, view_ofText, room_ofText] at met
  obtain ⟨whole, chains⟩ := met
  have spelled := spells_seen_iff.mpr ⟨whole, rfl⟩
  refine ⟨_, spelled, ?_⟩
  revert chains
  generalize (Scanner.ofText text).ahead.1.map Token.lexeme = ls
  rintro ⟨first, ⟨⟩⟩
  simpa using first

end Parser

namespace Filter

open TreeQuery.Parser Spelling

variable {maxDepth : Nat} {texts : List String} {fs : List Filter}

/-- With commas between them, chains are spelled as chains with commas between them. -/
theorem exists_spells_intercalate (chains : List.Forall₂ (IsChain maxDepth) texts fs)
    (nonempty : texts ≠ []) :
    ∃ ls, Spells (seen (", ".intercalate texts)) ls ∧
      Grammar.Separated .comma (Grammar.Chain maxDepth) ls fs := by
  induction chains with
  | nil => exact absurd rfl nonempty
  | @cons text f texts fs chain rest ih =>
    obtain ⟨ls, spelled, phrase⟩ := chain.exists_spells
    cases texts with
    | nil =>
      cases rest
      rw [String.intercalate_singleton]
      have separated : Grammar.Separated .comma (Grammar.Chain maxDepth) (ls ++ []) [f] :=
        .intro phrase .nil
      rw [List.append_nil] at separated
      exact ⟨ls, spelled, separated⟩
    | cons text' texts =>
      obtain ⟨ls', spelled', separated⟩ := ih (List.cons_ne_nil _ _)
      rw [String.intercalate_cons_cons, seen_append, seen_append, List.append_assoc]
      have comma : TokenKind.ofChar? ',' = some .comma := rfl
      have separator : seen ", " = [',', ' '] := by decide
      have between := Spells.punctuation comma (.blank (by decide : isBlank ' ') spelled')
      rw [separator]
      have breaks : Breaks ([',', ' '] ++ seen (", ".intercalate (text' :: texts))) :=
        breaks_of_ofChar? comma (by decide)
      exact ⟨_, spelled.append between breaks, .cons phrase rfl separated⟩

/-- Several chains with commas between them are parsed as a group. -/
theorem parse_intercalate (chains : List.Forall₂ (IsChain maxDepth) texts fs)
    (several : 2 ≤ texts.length) : parse maxDepth (", ".intercalate texts) = .ok (.group fs) := by
  have nonempty : texts ≠ [] := by
    rintro rfl
    cases several
  obtain ⟨ls, spelled, separated⟩ := exists_spells_intercalate chains nonempty
  rw [chains.length_eq] at several
  exact parse_eq_ok_iff_spells.mpr ⟨ls, spelled, fs, separated, Grammar.collapsed_of_two_le several⟩

end Filter

end TreeQuery
