import TreeQuery.Proofs.Grammar.Leftmost
import TreeQuery.Proofs.Grammar.Levels
import TreeQuery.Proofs.Grammar.Resemblance
import TreeQuery.Proofs.Grammar.Stopping

/-!
# The limit on mappings inside each other

A text is parsed with two limits. Where the larger one gives a filter, the smaller one gives the
same filter if the filter has no more levels than that; otherwise it fails at the first brace that
opens one level too many. Where the larger one gives an error, the smaller one gives the same error,
or it has failed at such a brace before.

The levels of the filter are those of the grammar. That a parser with the smaller limit goes the
same way as one with the larger limit is known of parsers side by side.

## Main statements

* `Filter.offset_le_of_parse` — with a smaller limit, an error comes no later
* `Filter.parse_within_limit` — what the limit does
-/

namespace TreeQuery

open Grammar

namespace Filter

variable {m m' : Nat} {text : String} {f : Filter} {e e' : ParseError}

/-! ### Places of errors -/

/-- With a smaller limit, an error comes no later: what can still be continued with the smaller
limit can be continued with the larger one. -/
theorem offset_le_of_parse (le : m ≤ m') (failed : parse m text = .error e)
    (failed' : parse m' text = .error e') : e.position.offset ≤ e'.position.offset := by
  obtain ⟨c, whole, raises, ⟨more, f, program⟩, -⟩ := exists_outlook_of_parse failed
  obtain ⟨c', whole', raises', -, refuted⟩ := exists_outlook_of_parse failed'
  generalize tokensBefore text e.position = ts at whole program
  generalize tokensBefore text e'.position = ts' at whole' refuted
  have same : c.behind ts = c'.behind ts' := whole.symm.trans whole'
  have tokens : ts ++ c.tokens = ts' ++ c'.tokens := congrArg Outlook.tokens same
  have ordered := Scanner.ordered_outlook_ofText text
  rw [raises.position, raises'.position]
  -- One of the errors has some tokens more before it than the other.
  rcases List.append_eq_append_iff.mp tokens with ⟨between, rfl, -⟩ | ⟨between, rfl, further⟩
  · rw [← Outlook.behind_behind, Outlook.behind_inj] at same
    rw [whole] at ordered
    have later := ordered.of_behind
    rw [same] at later ⊢
    exact later.place_le
  · cases between with
    | nil =>
      rw [List.append_nil] at same
      rw [Outlook.behind_inj.mp same]
    | cons t between =>
      -- The larger limit would have refused a token that the smaller one let pass.
      have heads : c'.Heads ((t :: between).map Token.lexeme ++ more) := by
        obtain ⟨tokens', ending⟩ := c'
        cases further
        exact ⟨_, rfl⟩
      refine absurd ⟨⟨f, program.mono le⟩, [], _, follows_nil, ?_, heads⟩ (refuted _)
      simp

/-! ### Two limits -/

/-- Outcomes in the same places differ only where a mapping is too deep. -/
theorem eq_or_tooDeep_of_resembling {α : Type} {offset inside : Nat}
    {out out' : Except ParseError α × Parser}
    (alike : Parsing.Resembling Eq m m' offset inside out out') :
    out.1 = out'.1 ∨ ∃ p, out.1 = .error (.tooDeep m p) := by
  cases alike with
  | value => exact .inl rfl
  | @error e e' q q' same =>
    rw [same.eq_withLimit]
    cases e' with
    | tooDeep limit p => exact .inr ⟨p, rfl⟩
    | _ => exact .inl rfl
  | tooDeep => exact .inr ⟨_, rfl⟩

/-- Two parsers at the beginning of a text, with two limits. -/
theorem resembles_ofText (m m' : Nat) (text : String) :
    (Parser.ofText m text).Resembles Eq m m' 0 0 (Parser.ofText m' text) :=
  ⟨Outlook.resembles_self (fun _ => rfl) _, .none, rfl, rfl, rfl, rfl⟩

/-- A smaller limit makes no difference, or it is exceeded. -/
theorem parse_eq_or_tooDeep (le : m ≤ m') :
    parse m text = parse m' text ∨ ∃ t, firstBeyond m 0 (Scanner.ofText text).ahead.1 = some t ∧
      parse m text = .error (.tooDeep m t.position) := by
  have alike := Parser.resembles_program le (resembles_ofText m m' text)
  rcases eq_or_tooDeep_of_resembling alike with same | ⟨p, failed⟩
  · refine .inl ?_
    rw [parse, parse, Parser.filter, Parser.filter, same]
  · obtain ⟨-, t, found, rfl⟩ := Parser.exists_brace_of_tooDeep failed
    exact .inr ⟨t, found, parse_eq_error_iff.mpr failed⟩

/-- A filter with no more levels than a limit is found with the limit. -/
theorem parse_of_levels_le (le : m ≤ m') (parsed : parse m' text = .ok f) (levels : f.levels ≤ m) :
    parse m text = .ok f := by
  obtain ⟨whole, phrase⟩ := parse_sound parsed
  have lower := program_and_levels_le.mp ⟨phrase, levels⟩
  rw [Nat.min_eq_right le] at lower
  exact parse_complete whole lower

theorem levels_le_of_parse (parsed : parse m text = .ok f) : f.levels ≤ m := by
  obtain ⟨-, phrase⟩ := parse_sound parsed
  rw [← Nat.min_self m] at phrase
  exact (program_and_levels_le.mpr phrase).2

/-- What a limit does. A text that has a filter with a larger limit has the same filter with a
smaller one if the filter has no more levels; otherwise the smaller limit is exceeded at the first
brace that opens one level too many. A text that has an error with the larger limit has the same
error with the smaller one, or the limit is exceeded at such a brace, which does not stand behind
the error. The levels of a filter are those of its deepest part, and one more for a mapping, so that
mappings side by side add nothing to each other. -/
theorem parse_within_limit (m m' : Nat) (le : m ≤ m') (text : String) :
    (∀ f, parse m' text = .ok f →
      (f.levels ≤ m → parse m text = .ok f) ∧
      (m < f.levels → ∃ t, firstBeyond m 0 (Scanner.ofText text).ahead.1 = some t ∧
        parse m text = .error (.tooDeep m t.position))) ∧
    (∀ e, parse m' text = .error e →
      parse m text = .error e ∨
        ∃ t, firstBeyond m 0 (Scanner.ofText text).ahead.1 = some t ∧ t.kind = .leftBrace ∧
          t.position.offset ≤ e.position.offset ∧
          parse m text = .error (.tooDeep m t.position)) ∧
    (∀ entries n, (mapping entries).levels ≤ n + 1 ↔ ∀ entry ∈ entries, entry.2.levels ≤ n) ∧
    (∀ parts n, (pipe parts).levels ≤ n ↔ ∀ part ∈ parts, part.levels ≤ n) ∧
    (∀ parts n, (group parts).levels ≤ n ↔ ∀ part ∈ parts, part.levels ≤ n) ∧
    ∀ op left right n,
      (binary op left right).levels ≤ n ↔ left.levels ≤ n ∧ right.levels ≤ n := by
  refine ⟨fun f parsed => ⟨parse_of_levels_le le parsed, fun more => ?_⟩, fun e failed => ?_,
    fun entries n => ?_, fun parts n => ?_, fun parts n => ?_, fun op left right n => ?_⟩
  · rcases parse_eq_or_tooDeep le with same | exceeded
    · have levels := levels_le_of_parse (same.trans parsed)
      exact absurd levels (Nat.not_le_of_lt more)
    · exact exceeded
  · rcases parse_eq_or_tooDeep le with same | ⟨t, found, exceeded⟩
    · exact .inl (same.trans failed)
    · refine .inr ⟨t, found, (mem_of_firstBeyond found).2, ?_, exceeded⟩
      exact offset_le_of_parse le exceeded failed
  · rw [levels, Nat.add_le_add_iff_right, levelsOfEntries_le_iff]
  · rw [levels, levelsOfAll_le_iff]
  · rw [levels, levelsOfAll_le_iff]
  · rw [levels, Nat.max_le]

/-- Three levels, the first of two mappings side by side not among them: with two levels, the brace
of the third is refused. -/
theorem parse_within_limit_three_levels :
    2 ≤ 3 ∧
      (∃ f, parse 3 "\x7ba: \x7b\x7d, b: \x7bc: \x7b\x7d\x7d\x7d" = .ok f ∧ f.levels = 3) ∧
      parse 2 "\x7ba: \x7b\x7d, b: \x7bc: \x7b\x7d\x7d\x7d" =
        .error (.tooDeep 2 ⟨1, 16, 15⟩) := by
  have levels : (parse 3 "\x7ba: \x7b\x7d, b: \x7bc: \x7b\x7d\x7d\x7d").map Filter.levels =
      .ok 3 := by decide +kernel
  have brace :
      firstBeyond 2 0 (Scanner.ofText "\x7ba: \x7b\x7d, b: \x7bc: \x7b\x7d\x7d\x7d").ahead.1 =
        some ⟨.leftBrace, "\x7b", ⟨1, 16, 15⟩⟩ := by decide +kernel
  generalize "\x7ba: \x7b\x7d, b: \x7bc: \x7b\x7d\x7d\x7d" = text at levels brace ⊢
  obtain ⟨within, -⟩ := parse_within_limit 2 3 (by decide) text
  cases parsed : parse 3 text with
  | error e =>
    rw [parsed] at levels
    cases levels
  | ok f =>
    rw [parsed] at levels
    have three : f.levels = 3 := Except.ok.inj levels
    obtain ⟨t, found, exceeded⟩ := (within f parsed).2 (by rw [three]; decide)
    rw [brace] at found
    cases found
    exact ⟨by decide, ⟨f, rfl, three⟩, exceeded⟩

end Filter

end TreeQuery
