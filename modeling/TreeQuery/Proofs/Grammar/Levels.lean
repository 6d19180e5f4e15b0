import TreeQuery.Proofs.Grammar.Basic

/-!
# How deep mappings stand inside each other

A mapping is a level of its own above the levels of its entries; whatever else a filter is made of,
it has the levels of its deepest part. So mappings side by side add nothing to each other. In the
grammar a number of levels is allowed in advance, and a phrase stands in the grammar for fewer
levels exactly if its filter has no more.

## Main definitions

* `Filter.levels` — how many mappings stand inside each other, at most

## Main statements

* `Grammar.program_and_levels_le` — the levels of a filter and the levels of the grammar
-/

namespace TreeQuery

namespace Filter

mutual

/-- How many mappings stand inside each other, at most. -/
def levels : Filter → Nat
  | binary _ left right => max left.levels right.levels
  | group members => levelsOfAll members
  | mapping entries => levelsOfEntries entries + 1
  | pipe stages => levelsOfAll stages
  | _ => 0

/-- The levels of the deepest of several trees. -/
def levelsOfAll : List Filter → Nat
  | [] => 0
  | f :: fs => max f.levels (levelsOfAll fs)

/-- The levels of the deepest of several named trees. -/
def levelsOfEntries : List (String × Filter) → Nat
  | [] => 0
  | (_, f) :: es => max f.levels (levelsOfEntries es)

end

theorem levelsOfAll_le_iff {fs : List Filter} {m : Nat} :
    levelsOfAll fs ≤ m ↔ ∀ f ∈ fs, f.levels ≤ m := by
  induction fs with
  | nil => simp [levelsOfAll]
  | cons f fs ih => simp [levelsOfAll, ih]

theorem levelsOfEntries_le_iff {es : List (String × Filter)} {m : Nat} :
    levelsOfEntries es ≤ m ↔ ∀ e ∈ es, e.2.levels ≤ m := by
  induction es with
  | nil => simp [levelsOfEntries]
  | cons e es ih => simp [levelsOfEntries, ih]

end Filter

namespace Grammar

variable {α : Type} {ls : List Lexeme} {f : Filter} {fs : List Filter} {m : Nat}

/-! ### Phrases of filters with few levels -/

/-- The filter joined from others has the levels of the deepest of them. -/
def KeepsLevels (Join : List Filter → Filter → Prop) : Prop :=
  ∀ fs f m, Join fs f → (f.levels ≤ m ↔ ∀ g ∈ fs, g.levels ≤ m)

theorem keepsLevels_leftNested (op : Operator) : KeepsLevels (LeftNested op) := by
  rintro _ _ m ⟨first, rest⟩
  induction rest generalizing first with
  | nil => simp
  | cons g rest ih =>
    rw [List.foldl_cons, ih]
    simp [Filter.levels, and_assoc]

theorem keepsLevels_collapsed {form : List Filter → Filter}
    (same : ∀ fs, (form fs).levels = Filter.levelsOfAll fs) : KeepsLevels (Collapsed form) := by
  rintro _ _ m (⟨f⟩ | ⟨f, g, fs⟩)
  · simp
  · rw [same, Filter.levelsOfAll_le_iff]

/-- A condition on all parts is one on each phrase. -/
theorem trailing_and {separator : TokenKind} {Phrase : List Lexeme → α → Prop} {P : α → Prop}
    {as : List α} : Trailing separator Phrase ls as ∧ (∀ a ∈ as, P a) ↔
      Trailing separator (fun ls a => Phrase ls a ∧ P a) ls as := by
  constructor
  · rintro ⟨phrases, all⟩
    induction phrases with
    | nil => exact .nil
    | cons between phrase _ ih =>
      rw [List.forall_mem_cons] at all
      exact .cons between ⟨phrase, all.1⟩ (ih all.2)
  · intro phrases
    induction phrases with
    | nil => exact ⟨.nil, nofun⟩
    | cons between phrase _ ih =>
      exact ⟨.cons between phrase.1 ih.1, List.forall_mem_cons.mpr ⟨phrase.2, ih.2⟩⟩

theorem separated_and {separator : TokenKind} {Phrase : List Lexeme → α → Prop} {P : α → Prop}
    {as : List α} : Separated separator Phrase ls as ∧ (∀ a ∈ as, P a) ↔
      Separated separator (fun ls a => Phrase ls a ∧ P a) ls as := by
  constructor
  · rintro ⟨⟨first, rest⟩, all⟩
    rw [List.forall_mem_cons] at all
    exact .intro ⟨first, all.1⟩ (trailing_and.mp ⟨rest, all.2⟩)
  · rintro ⟨first, rest⟩
    obtain ⟨rest, all⟩ := trailing_and.mpr rest
    exact ⟨.intro first.1 rest, List.forall_mem_cons.mpr ⟨first.2, all⟩⟩

theorem joined_and_levels_le {separator : TokenKind} {Join : List Filter → Filter → Prop}
    {Phrase : List Lexeme → Filter → Prop} (keeps : KeepsLevels Join) :
    Joined separator Join Phrase ls f ∧ f.levels ≤ m ↔
      Joined separator Join (fun ls f => Phrase ls f ∧ f.levels ≤ m) ls f := by
  constructor
  · rintro ⟨⟨fs, phrases, join⟩, le⟩
    exact ⟨fs, separated_and.mp ⟨phrases, (keeps fs f m join).mp le⟩, join⟩
  · rintro ⟨fs, phrases, join⟩
    obtain ⟨phrases, all⟩ := separated_and.mpr phrases
    exact ⟨⟨fs, phrases, join⟩, (keeps fs f m join).mpr all⟩

theorem Selectors.levels (h : Selectors ls f) : f.levels = 0 := by
  obtain ⟨-, steps, -, path⟩ := h
  cases path <;> simp [Filter.levels]

theorem Literal.levels (h : Literal ls f) : f.levels = 0 := by
  cases h <;> simp [Filter.levels]

theorem operand_and_levels_le {Mapping : List Lexeme → Filter → Prop} :
    Operand Mapping ls f ∧ f.levels ≤ m ↔
      Operand (fun ls f => Mapping ls f ∧ f.levels ≤ m) ls f := by
  constructor
  · rintro ⟨selectors | literal | mapping, le⟩
    · exact .selectors selectors
    · exact .literal literal
    · exact .mapping ⟨mapping, le⟩
  · rintro (selectors | literal | mapping)
    · exact ⟨.selectors selectors, by rw [selectors.levels]; exact Nat.zero_le m⟩
    · exact ⟨.literal literal, by rw [literal.levels]; exact Nat.zero_le m⟩
    · exact ⟨.mapping mapping.1, mapping.2⟩

theorem chainOver_and_levels_le {Mapping : List Lexeme → Filter → Prop} :
    ChainOver Mapping ls f ∧ f.levels ≤ m ↔
      ChainOver (fun ls f => Mapping ls f ∧ f.levels ≤ m) ls f := by
  unfold ChainOver Sum Product
  rw [joined_and_levels_le (keepsLevels_collapsed fun fs => by rw [Filter.levels])]
  simp only [joined_and_levels_le (keepsLevels_leftNested _), operand_and_levels_le]

theorem mapping_and_levels_le {Chain : List Lexeme → Filter → Prop} :
    Mapping Chain ls f ∧ f.levels ≤ m + 1 ↔
      Mapping (fun ls f => Chain ls f ∧ f.levels ≤ m) ls f := by
  have entry : (fun ls e => Entry Chain ls e ∧ e.2.levels ≤ m) =
      Entry fun ls f => Chain ls f ∧ f.levels ≤ m := by
    funext ls e
    refine propext ⟨?_, ?_⟩
    · rintro ⟨⟨isName, colon, value⟩, le⟩
      exact .intro isName colon ⟨value, le⟩
    · rintro ⟨isName, colon, value⟩
      exact ⟨.intro isName colon value.1, value.2⟩
  constructor
  · rintro ⟨⟨left, right⟩ | ⟨left, entries, right⟩, le⟩
    · exact .empty left right
    · rw [Filter.levels, Nat.succ_le_succ_iff, Filter.levelsOfEntries_le_iff] at le
      exact .entries left (entry ▸ separated_and.mp ⟨entries, le⟩) right
  · rintro (⟨left, right⟩ | ⟨left, entries, right⟩)
    · exact ⟨.empty left right, by simp [Filter.levels, Filter.levelsOfEntries]⟩
    · obtain ⟨entries, all⟩ := separated_and.mpr (entry.symm ▸ entries)
      refine ⟨.entries left entries right, ?_⟩
      rw [Filter.levels, Nat.succ_le_succ_iff, Filter.levelsOfEntries_le_iff]
      exact all

/-! ### Levels of the grammar -/

theorem mappingWithin_and_levels_le {depth : Nat} :
    MappingWithin depth ls f ∧ f.levels ≤ m ↔ MappingWithin (min depth m) ls f := by
  induction depth generalizing m ls f with
  | zero => simp [MappingWithin]
  | succ depth ih =>
    cases m with
    | zero =>
      -- A mapping is a level.
      refine ⟨?_, False.elim⟩
      rintro ⟨mapping, le⟩
      cases mapping <;> simp [Filter.levels] at le
    | succ m =>
      rw [Nat.succ_min_succ]
      unfold MappingWithin
      rw [mapping_and_levels_le]
      simp only [chainOver_and_levels_le, ih]

theorem chain_and_levels_le {depth : Nat} :
    Chain depth ls f ∧ f.levels ≤ m ↔ Chain (min depth m) ls f := by
  unfold Chain
  rw [chainOver_and_levels_le]
  simp only [mappingWithin_and_levels_le]

/-- A program within some levels stands for a filter with at most so many, and fewer suffice if the
filter has no more. -/
theorem program_and_levels_le {depth : Nat} :
    Program depth ls f ∧ f.levels ≤ m ↔ Program (min depth m) ls f := by
  unfold Program
  rw [joined_and_levels_le (keepsLevels_collapsed fun fs => by rw [Filter.levels])]
  simp only [chain_and_levels_le]

end Grammar

end TreeQuery
