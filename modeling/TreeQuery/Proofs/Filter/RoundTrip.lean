import TreeQuery.Proofs.Filter.Rendering
import TreeQuery.Proofs.Grammar.Parse

/-!
# Printing and parsing

A tree that was read from a text is printed as a text that reads back as the tree, unless infinity
is among its literals: a numeral may be too large for a double, and infinity is printed as a word.

## Main definitions

* `Filter.Finite` — no literal is infinite

## Main statements

* `Filter.parse_print` — a finite tree reads back
* `Filter.eq_of_print_eq` — finite trees are known by their texts
* `Filter.finite_of_parse_print` — an infinite one does not read back
-/

namespace TreeQuery

namespace Filter

open Piece

/-- No literal is infinite. -/
def Finite (f : Filter) : Prop := ∀ x ∈ f.literals, x.isInf = false

variable {maxDepth maxDepth' : Nat} {text text' : String} {f g : Filter}

/-- The pieces of a tree may be put in the place of the lexemes that it was read from. -/
theorem exists_renders (parsed : parse maxDepth text = .ok f) : ∃ ls, (∀ l ∈ ls, l.Clean) ∧
    Renders f.pieces ls (Grammar.Program maxDepth · f) := by
  obtain ⟨ls, spelled, phrase⟩ := parse_eq_ok_iff_spells.mp parsed
  exact ⟨ls, spelled.clean (not_mem_seen text), phrase.renders⟩

/-- The text of a tree that was read is spelled as the lexemes of its pieces. -/
theorem spells_print (parsed : parse maxDepth text = .ok f) :
    Spells (seen f.print) (lexemesOf f.pieces) := by
  obtain ⟨ls, clean, renders⟩ := exists_renders parsed
  rw [seen_print]
  exact renders.spelled clean

/-- The lexemes of the pieces stand for the tree, if it is finite. -/
theorem program_lexemesOf (parsed : parse maxDepth text = .ok f) (finite : f.Finite) :
    Grammar.Program maxDepth (lexemesOf f.pieces) f := by
  obtain ⟨ls, -, renders⟩ := exists_renders parsed
  exact renders.stands fun x mem => finite x (mem_literals_iff.mpr mem)

theorem isNaN_of_parse (parsed : parse maxDepth text = .ok f) :
    ∀ x ∈ f.literals, x.isNaN = false := by
  obtain ⟨ls, -, renders⟩ := exists_renders parsed
  exact fun x mem => renders.numbers x (mem_literals_iff.mp mem)

/-- A text is spelled as one list of lexemes. -/
theorem spells_unique {ls ls' : List Lexeme} (h : Spells (seen text) ls)
    (h' : Spells (seen text) ls') : ls = ls' :=
  (spells_seen_iff.mp h).2.symm.trans (spells_seen_iff.mp h').2

/-- A finite tree that was read reads back. -/
theorem parse_print (parsed : parse maxDepth text = .ok f) (finite : f.Finite) :
    parse maxDepth f.print = .ok f :=
  parse_eq_ok_iff_spells.mpr ⟨_, spells_print parsed, program_lexemesOf parsed finite⟩

/-- Finite trees that were read are known by their texts. -/
theorem eq_of_print_eq (parsed : parse maxDepth text = .ok f)
    (parsed' : parse maxDepth' text' = .ok g) (finite : f.Finite) (finite' : g.Finite)
    (same : f.print = g.print) : f = g := by
  have spelled := spells_print parsed
  rw [same] at spelled
  have phrase := program_lexemesOf parsed finite
  rw [spells_unique spelled (spells_print parsed')] at phrase
  exact Grammar.eq_of_program phrase (program_lexemesOf parsed' finite')

/-- A tree that was read and reads back is finite. -/
theorem finite_of_parse_print (parsed : parse maxDepth text = .ok f)
    (parsed' : parse maxDepth' f.print = .ok g) (same : g.same f) : f.Finite := by
  obtain ⟨ls, spelled, phrase⟩ := parse_eq_ok_iff_spells.mp parsed'
  -- What is read from the text of `f` has at least as many names and texts as the text, and each
  -- infinity in `f` is one more in its text.
  have words := phrase.renders.words
  rw [spells_unique spelled (spells_print parsed), words_eq_of_same g f same,
    countP_lexemesOf fun x mem => isNaN_of_parse parsed x (mem_literals_iff.mpr mem)] at words
  have none : f.pieces.countP isInfinite = 0 := by omega
  intro x mem
  have finite := List.countP_eq_zero.mp none _ (mem_literals_iff.mp mem)
  simpa [isInfinite] using finite

/-- A tree that was read from a text is read again from the text it is printed as, exactly if no
literal in it is infinite. Finite trees that are printed alike are equal. -/
theorem parse_print_iff (parsed : parse maxDepth text = .ok f) :
    ((∃ f', parse maxDepth f.print = .ok f' ∧ f'.same f) ↔ ∀ x ∈ f.literals, x.isInf = false) ∧
      ((∀ x ∈ f.literals, x.isInf = false) → parse maxDepth f.print = .ok f) ∧
      ∀ maxDepth' text' g, parse maxDepth' text' = .ok g → (∀ x ∈ f.literals, x.isInf = false) →
        (∀ x ∈ g.literals, x.isInf = false) → f.print = g.print → f = g := by
  refine ⟨⟨?_, ?_⟩, parse_print parsed, ?_⟩
  · rintro ⟨f', parsed', same⟩
    exact finite_of_parse_print parsed parsed' same
  · intro finite
    exact ⟨f, parse_print parsed finite, same_self f (isNaN_of_parse parsed)⟩
  · intro maxDepth' text' g parsed' finite finite'
    exact eq_of_print_eq parsed parsed' finite finite'

theorem parse_print_iff_mapping :
    ∃ f, parse defaultMaxDepth "\x7ba: .b[1:2].c*-2.50, \"x y\": length\x7d|." = .ok f ∧
      f.print = "\x7ba: .b[1:2].c * -2.5, \"x y\": length\x7d | ." ∧
      (∀ x ∈ f.literals, x.isInf = false) ∧ parse defaultMaxDepth f.print = .ok f := by
  have found : ((parse defaultMaxDepth
      "\x7ba: .b[1:2].c*-2.50, \"x y\": length\x7d|.").toOption.any fun f =>
        f.print == "\x7ba: .b[1:2].c * -2.5, \"x y\": length\x7d | ." &&
          f.literals.all (!·.isInf)) = true := by decide +kernel
  cases parsed : parse defaultMaxDepth "\x7ba: .b[1:2].c*-2.50, \"x y\": length\x7d|." with
  | error e =>
    rw [parsed] at found
    cases found
  | ok f =>
    rw [parsed, Except.toOption, Option.any_some] at found
    simp only [Bool.and_eq_true, beq_iff_eq, List.all_eq_true, Bool.not_eq_true'] at found
    obtain ⟨printed, finite⟩ := found
    exact ⟨f, rfl, printed, finite, (parse_print_iff parsed).2.1 finite⟩

end Filter

end TreeQuery
