import TreeQuery.Proofs.Evaluation.Rules
import TreeQuery.Proofs.Host.Footprint

/-!
# Streams that provide

What a stream provides is told by what its elements are, whatever it is that is said about an
element, as long as this is a matter of the streams that belong to the element. A stream provides
what its cursor emits. A source that lists its elements emits these, and fails where it lists a
failure. A slice emits the slice of what the stream under it provides, and passes a failure on if it
gets so far. A cursor of transformed elements emits what is made of the elements, up to the first
failure of the stream under it or of the transform. Each of them owns the stream that it takes its
elements from.

## Main definitions

* `Slice.upcoming` — what a slice takes of the elements that are to come
* `Evaluation.Apportioned` — values that share no streams
* `Evaluation.Provides`, `Evaluation.Emits` — what a stream and what a cursor gives
* `Evaluation.Brings`, `Evaluation.Transforms` — what an evaluation and a transform make of a value
* `Evaluation.Made` — what becomes of elements one after the other

## Main statements

* `Evaluation.provides_of_listed`, `Evaluation.provides_of_sliced`,
  `Evaluation.provides_of_mapped` — one for each kind of cursor
* `Evaluation.Apportioned.inTurn` — what is made of parts one after the other
-/

namespace TreeQuery

/-- The elements that a slice takes of those from a position on, with a limit on how many it may
look at. -/
def Slice.upcoming {α : Type} (s : Slice) :
    (budget : Option Nat) → (position : Nat) → List α → List α
  | _, _, [] => []
  | budget, position, x :: xs =>
    if budget = some 0 then []
    else
      let rest := s.upcoming (budget.map (· - 1)) (position + 1) xs
      if s.contains position then x :: rest else rest

namespace Slice

variable {α : Type} {s : Slice}

/-- What is to come is cut at the stop first and at the start then, counted from the position. -/
theorem upcoming_eq_drop (part : s.all = false) (position : Nat) (xs : List α) :
    s.upcoming (s.stop.map (· - position)) position xs =
      ((s.stop.map fun stop => xs.take (stop - position)).getD xs).drop (s.start - position) := by
  induction xs generalizing position with
  | nil => cases s.stop <;> simp [upcoming]
  | cons x xs ih =>
    by_cases spent : s.stop.map (· - position) = some 0
    · obtain ⟨stop, closed, none⟩ := Option.map_eq_some_iff.mp spent
      simp [upcoming, closed, none]
    have below : s.stop.all (fun stop => decide (position < stop)) = true ∧
        (s.stop.map fun stop => (x :: xs).take (stop - position)).getD (x :: xs) =
          x :: (s.stop.map fun stop => xs.take (stop - (position + 1))).getD xs := by
      cases closed : s.stop with
      | none => exact ⟨rfl, rfl⟩
      | some stop =>
        obtain ⟨k, gap⟩ : ∃ k, stop - position = k + 1 :=
          Nat.exists_eq_succ_of_ne_zero fun zero => spent (by rw [closed, Option.map_some, zero])
        have left : stop - (position + 1) = k := by omega
        have inside : position < stop := by omega
        simp [gap, left, inside]
    -- In front of the stop, the start alone decides.
    have contains : s.contains position = decide (s.start ≤ position) := by
      rw [Slice.contains, part, Bool.false_or, below.1, Bool.and_true]
    have budget : (s.stop.map (· - position)).map (· - 1) = s.stop.map (· - (position + 1)) := by
      rw [Option.map_map]
      rfl
    simp only [upcoming, if_neg spent, budget, ih, contains, below.2, decide_eq_true_eq]
    split
    · next started =>
      rw [Nat.sub_eq_zero_of_le started, Nat.sub_eq_zero_of_le (Nat.le_succ_of_le started)]
      rfl
    · next before =>
      obtain ⟨k, gap⟩ : ∃ k, s.start - position = k + 1 := ⟨s.start - position - 1, by omega⟩
      rw [gap, List.drop_succ_cons, show s.start - (position + 1) = k by omega]

/-- Bounds beyond the end of a list are as good as its end. -/
theorem drop_min_length {k n : Nat} {xs : List α} (le : xs.length ≤ n) :
    xs.drop (min k n) = xs.drop k := by
  rcases Nat.le_total k n with le' | le'
  · rw [Nat.min_eq_left le']
  · rw [Nat.min_eq_right le', List.drop_eq_nil_of_le le,
      List.drop_eq_nil_of_le (Nat.le_trans le le')]

/-- From the first position on, that is the slice of the whole. -/
theorem upcoming_eq_apply (part : s.all = false) (xs : List α) :
    s.upcoming s.stop 0 xs = s.apply xs := by
  have whole := upcoming_eq_drop part 0 xs
  simp only [Nat.sub_zero, Option.map_id'] at whole
  simp only [whole, apply, bounds, part, Bool.false_eq_true, if_false]
  cases s.stop with
  | none =>
    simp only [Option.map_none, Option.getD_none, List.take_length]
    rw [drop_min_length (Nat.le_refl _)]
  | some stop =>
    have clipped : (xs.take stop).length ≤ min stop xs.length := by simp
    simp only [Option.map_some, Option.getD_some]
    rw [← List.take_eq_take_min, drop_min_length clipped]

end Slice

namespace Evaluation

open Host Run

section Definitions

variable {α β : Type} (Is : Set StreamId → Host → Value → α → Prop)
  (Is' : Set StreamId → Host → Value → β → Prop)

/-- Only the footprint of a value decides what it is. -/
def Local : Prop := ∀ ⦃F h h' v a⦄, Is F h v a → SameOn F h h' → Is F h' v a

/-- The values are what is listed, one after the other, and share no streams. -/
def Apportioned (F : Set StreamId) (h : Host) (vs : List Value) : List α → Prop
  | [] => vs = []
  | a :: as => ∃ v vs' F₁ F₂, vs = v :: vs' ∧ F₁ ∪ F₂ ⊆ F ∧ Disjoint F₁ F₂ ∧ Is F₁ h v a ∧
      Apportioned F₂ h vs' as

/-- However the host looks outside of `F`, pulls of the stream give elements that are what is
listed, one after the other, and then none, or a failure. Of the streams that `F` has become after a
pull, the element has some and the stream keeps others. -/
def Provides (F : Set StreamId) (h : Host) (id : StreamId) (failing : Bool) : List α → Prop
  | [] => ∀ h₁, SameOn F h h₁ →
      if failing then ∃ e h₂, Reaches (fun n => pull n id) h₁ (.error e) h₂
      else ∃ h₂, Reaches (fun n => pull n id) h₁ (.ok none) h₂ ∧ Within F h₁ h₂
  | a :: as => ∀ h₁, SameOn F h h₁ →
      ∃ v h₂ F₁ F₂, Reaches (fun n => pull n id) h₁ (.ok (some v)) h₂ ∧
        Moves F (F₁ ∪ F₂) h₁ h₂ ∧ Disjoint F₁ F₂ ∧ Is F₁ h₂ v a ∧ Provides F₂ h₂ id failing as

/-- While it is busy, the stream has a cursor that gives what is listed, one after the other, and
then ends or fails, when the streams that the cursor takes it from are in `F`. -/
def Emits (F : Set StreamId) (h : Host) (id : StreamId) (c : Cursor) (failing : Bool) :
    List α → Prop
  | [] =>
    if failing then ∃ e h', Reaches (fun n => advance n id c) h (.error e) h'
    else ∃ h', Reaches (fun n => advance n id c) h (.ok none) h' ∧ Within (F ∪ {id}) h h'
  | a :: as => ∃ v h' F₁ F₂, Reaches (fun n => advance n id c) h (.ok (some v)) h' ∧
      Moves (F ∪ {id}) (F₁ ∪ (F₂ ∪ {id})) h h' ∧ Disjoint F₁ (F₂ ∪ {id}) ∧ Is F₁ h' v a ∧
        Provides Is (F₂ ∪ {id}) (h'.setBusy id false) id failing as

/-- Of whatever is `a`, the evaluation makes something that is `b`. -/
def Brings (r : Value → (allowance : Nat) → Evaluation Value) (a : α) (b : β) : Prop :=
  ∀ ⦃F h v⦄, Is F h v a → h.Covers F →
    ∃ w h' G, Reaches (r v) h (.ok w) h' ∧ Moves F G h h' ∧ Is' G h' w b

/-- Of whatever is `a`, the transform makes something that is the other thing, or always fails. -/
def Transforms (t : Transform) (a : α) (made : Option β) : Prop :=
  ∀ ⦃F h v⦄, Is F h v a → h.Covers F →
    match made with
    | some b => ∃ w h' G, Reaches (fun n => transform n t v) h (.ok w) h' ∧ Moves F G h h' ∧
        Is' G h' w b
    | none => ∃ e h', Reaches (fun n => transform n t v) h (.error e) h'

/-- What becomes of elements one after the other, up to the first failure: one of them that comes to
nothing, or the one after them. -/
inductive Made (R : α → Option β → Prop) (failing : Bool) : List α → List β → Bool → Prop
  | finish : Made R failing [] [] failing
  | failure {a : α} {as : List α} (fails : R a none) : Made R failing (a :: as) [] true
  | element {a : α} {as : List α} {b : β} {bs : List β} {failing' : Bool} (gives : R a (some b))
      (rest : Made R failing as bs failing') : Made R failing (a :: as) (b :: bs) failing'

end Definitions

variable {α β : Type} {Is : Set StreamId → Host → Value → α → Prop}
  {Is' : Set StreamId → Host → Value → β → Prop} {F F' : Set StreamId} {h h' : Host}
  {id feed : StreamId} {c c' : Cursor} {s : Source} {t : Transform} {vs : List Value} {a : α}
  {as : List α} {b : β} {bs : List β} {rest : List Item} {failing failing' : Bool}

theorem Apportioned.of_sameOn (isLocal : Local Is) (all : Apportioned Is F h vs as)
    (same : SameOn F h h') : Apportioned Is F h' vs as := by
  induction as generalizing F vs with
  | nil => exact all
  | cons a as ih =>
    obtain ⟨v, vs', F₁, F₂, eq, sub, disjoint, first, others⟩ := all
    obtain ⟨sub₁, sub₂⟩ := Set.union_subset_iff.mp sub
    exact ⟨v, vs', F₁, F₂, eq, sub, disjoint, isLocal first (same.mono sub₁),
      ih others (same.mono sub₂)⟩

theorem Provides.of_sameOn (provides : Provides Is F h id failing as) (same : SameOn F h h') :
    Provides Is F h' id failing as := by
  cases as with
  | nil => exact fun h₁ same' => provides h₁ (same.trans same')
  | cons a as => exact fun h₁ same' => provides h₁ (same.trans same')

/-- A stream provides what its cursor emits. -/
theorem provides_of_emits (isLocal : Local Is) (outside : id ∉ F)
    (found : h.streams[id.index]? = some ⟨c, false⟩)
    (emits : ∀ h₁, SameOn F h h₁ → h₁.streams[id.index]? = some ⟨c, true⟩ →
      Emits Is F h₁ id c failing as) : Provides Is (F ∪ {id}) h id failing as := by
  -- Whatever has happened elsewhere, a pull starts with the stream marked as busy.
  have start {h₁ : Host} (same : SameOn (F ∪ {id}) h h₁) :
      h₁.streams[id.index]? = some ⟨c, false⟩ ∧
        Emits Is F (h₁.setBusy id true) id c failing as := by
    have found₁ := (same.streams id (.inr rfl)).trans found
    have same₁ : SameOn F h (h₁.setBusy id true) :=
      (same.mono Set.subset_union_left).trans (sameOn_modifyStream outside)
    exact ⟨found₁, emits _ same₁ (getElem?_modifyStream found₁)⟩
  cases as with
  | nil =>
    intro h₁ same
    obtain ⟨found₁, atEnd⟩ := start same
    cases failing with
    | true =>
      obtain ⟨e, h₂, fails⟩ := atEnd
      exact ⟨e, _, (reaches_pull_iff found₁).mpr ⟨h₂, fails, rfl⟩⟩
    | false =>
      obtain ⟨h₂, ends, within⟩ := atEnd
      have within₁ : Within (F ∪ {id}) h₁ h₂ := (moves_modifyStream F).within_trans within
      exact ⟨h₂.setBusy id false, reaches_pull found₁ ends,
        (within₁.moves subset_rfl).within_trans (moves_modifyStream F).toWithin⟩
  | cons a as =>
    intro h₁ same
    obtain ⟨found₁, v, h₂, F₁, F₂, gives, moves, disjoint, first, others⟩ := start same
    have moves₁ : Moves (F ∪ {id}) (F₁ ∪ (F₂ ∪ {id})) h₁ h₂ := (moves_modifyStream F).trans moves
    have moves₂ : Moves (F ∪ {id}) (F₁ ∪ (F₂ ∪ {id})) h₁ (h₂.setBusy id false) := by
      rw [← Set.union_assoc] at moves₁ ⊢
      exact moves₁.trans (moves_modifyStream _)
    have apart : id ∉ F₁ := fun mem => Set.disjoint_left.mp disjoint mem (.inr rfl)
    exact ⟨v, h₂.setBusy id false, F₁, F₂ ∪ {id}, reaches_pull found₁ gives, moves₂, disjoint,
      isLocal first (sameOn_modifyStream apart), others⟩

/-- What a cursor emits after a move that gives nothing yet. -/
theorem Emits.after (emits : Emits Is F' h' id c' failing as)
    (moves : Moves (F ∪ {id}) (F' ∪ {id}) h h')
    (goesOn : ∀ result h'', Reaches (fun n => advance n id c') h' result h'' →
      Reaches (fun n => advance n id c) h result h'') : Emits Is F h id c failing as := by
  cases as with
  | nil =>
    cases failing with
    | true =>
      obtain ⟨e, h₁, fails⟩ := emits
      exact ⟨e, h₁, goesOn _ _ fails⟩
    | false =>
      obtain ⟨h₁, ends, within⟩ := emits
      exact ⟨h₁, goesOn _ _ ends, moves.within_trans within⟩
  | cons a as =>
    obtain ⟨v, h₁, F₁, F₂, gives, moves', others⟩ := emits
    exact ⟨v, h₁, F₁, F₂, goesOn _ _ gives, moves.trans moves', others⟩

/-! ### Sources -/

theorem emits_listed (isLocal : Local Is) (outside : id ∉ F) (covers : h.Covers F)
    (found : h.streams[id.index]? = some ⟨.source s, true⟩)
    (listed : s.supply = .listed (vs.map .element ++ rest))
    (atEnd : if failing then ∃ e others, rest = .failure e :: others else rest = [])
    (all : Apportioned Is F h vs as) : Emits Is F h id (.source s) failing as := by
  induction as generalizing F h s vs with
  | nil =>
    obtain rfl : vs = [] := all
    cases failing with
    | true =>
      obtain ⟨e, others, rfl⟩ := atEnd
      have takes : s.take? = some (.failure e,
          { s with supply := .listed others, position := s.position + 1 }) := by
        rw [Source.take?, listed]
        rfl
      exact ⟨e, _, reaches_advance_source_some takes rfl⟩
    | false =>
      obtain rfl : rest = [] := atEnd
      exact ⟨_, reaches_advance_listed_nil listed, (within_record _ h).mono (Set.empty_subset _)⟩
  | cons a as ih =>
    obtain ⟨v, vs, F₁, F₂, rfl, sub, disjoint, first, others⟩ := all
    obtain ⟨sub₁, sub₂⟩ := Set.union_subset_iff.mp sub
    have apart₁ : id ∉ F₁ := fun mem => outside (sub₁ mem)
    have apart₂ : id ∉ F₂ := fun mem => outside (sub₂ mem)
    let s' : Source :=
      { s with supply := .listed (vs.map .element ++ rest), position := s.position + 1 }
    let h₁ := (h.setCursor id (.source s')).record (.pull id s.position none)
    have gives : Reaches (fun n => advance n id (.source s)) h (.ok (some v)) h₁ :=
      reaches_advance_listed_cons listed
    have found₁ : h₁.streams[id.index]? = some ⟨.source s', true⟩ :=
      getElem?_modifyStream (f := fun cell => { cell with cursor := .source s' }) found
    have same {K : Set StreamId} (apart : id ∉ K) : SameOn K h h₁ :=
      (sameOn_modifyStream apart).trans (sameOn_record K _ _)
    have within : Within {id} h h₁ := by
      have changed : Within {id} h (h.setCursor id (.source s')) := within_modifyStream id _ h
      exact (changed.moves subset_rfl).within_trans
        ((within_record _ _).mono (Set.empty_subset _))
    refine ⟨v, h₁, F₁, F₂, gives, ?_, ?_, isLocal first (same apart₁), ?_⟩
    · refine (within.mono Set.subset_union_right).moves ?_
      rw [← Set.union_assoc]
      exact Set.union_subset_union_left _ sub
    · exact Set.disjoint_union_right.mpr ⟨disjoint, Set.disjoint_singleton_right.mpr apart₁⟩
    · -- The source with the elements that are left is listed, too.
      have same₂ : SameOn F₂ h (h₁.setBusy id false) :=
        (same apart₂).trans (sameOn_modifyStream apart₂)
      refine provides_of_emits isLocal apart₂ (getElem?_modifyStream found₁)
        fun h₂ same' found₂ => ?_
      have same₃ := same₂.trans same'
      exact ih apart₂ (same₃.covers (covers.mono sub₂)) found₂ rfl (others.of_sameOn isLocal same₃)

/-- A source provides its elements, provided that it is not one of their streams. -/
theorem provides_of_listed (isLocal : Local Is) (outside : id ∉ F) (covers : h.Covers F)
    (found : h.streams[id.index]? = some ⟨.source s, false⟩)
    (listed : s.supply = .listed (vs.map .element ++ rest))
    (atEnd : if failing then ∃ e others, rest = .failure e :: others else rest = [])
    (all : Apportioned Is F h vs as) : Provides Is (F ∪ {id}) h id failing as :=
  provides_of_emits isLocal outside found fun _ same found' =>
    emits_listed isLocal outside (same.covers covers) found' listed atEnd
      (all.of_sameOn isLocal same)

/-! ### Streams on top of others -/

/-- When a stream pulls another one, this does not touch its own cursor, and the element has nothing
to do with it. -/
theorem Provides.pull_beside {cell : StreamCell} (provides : Provides Is F h feed failing (a :: as))
    (outside : id ∉ F) (covers : h.Covers F) (found : h.streams[id.index]? = some cell) :
    ∃ v h' F₁ F₂, Reaches (fun n => pull n feed) h (.ok (some v)) h' ∧
      Moves (F ∪ {id}) (F₁ ∪ (F₂ ∪ {id})) h h' ∧ Disjoint F₁ (F₂ ∪ {id}) ∧ id ∉ F₂ ∧
      h'.Covers (F₁ ∪ (F₂ ∪ {id})) ∧ h'.streams[id.index]? = some cell ∧
        Is F₁ h' v a ∧ Provides Is F₂ h' feed failing as := by
  obtain ⟨v, h', F₁, F₂, pulls, moves, disjoint, first, others⟩ := provides h (.refl F h)
  have own := covers_singleton found
  have beside : Disjoint F {id} := Set.disjoint_singleton_right.mpr outside
  obtain ⟨apart₁, apart₂⟩ := Set.disjoint_union_left.mp (moves.disjoint beside own)
  have framed := moves.frame {id}
  rw [Set.union_assoc] at framed
  have same : SameOn {id} h h' := moves.toWithin.sameOn beside own
  exact ⟨v, h', F₁, F₂, pulls, framed, Set.disjoint_union_right.mpr ⟨disjoint, apart₁⟩,
    Set.disjoint_singleton_right.mp apart₂, framed.covers (covers_union_iff.mpr ⟨covers, own⟩),
    (same.streams id rfl).trans found, first, others⟩

/-- A slice emits of the elements that are to come those that it contains. It passes a failure on,
if it may look beyond all elements before it. -/
theorem emits_sliced {s : Slice} {budget : Option Nat} {position : Nat} (isLocal : Local Is)
    (outside : id ∉ F) (covers : h.Covers F)
    (found : h.streams[id.index]? = some ⟨.sliced feed s budget position, true⟩)
    (provides : Provides Is F h feed failing as) :
    Emits Is F h id (.sliced feed s budget position) (failing && budget.all (as.length < ·))
      (s.upcoming budget position as) := by
  induction as generalizing F h budget position with
  | nil =>
    by_cases spent : budget = some 0
    · subst spent
      rw [Option.all_some, decide_eq_false (Nat.not_lt_zero _), Bool.and_false]
      exact ⟨h, reaches_advance_spent, .refl _ h⟩
    · have unspent : budget.all (([] : List α).length < ·) = true := by
        cases budget with
        | none => rfl
        | some n => exact decide_eq_true (Nat.pos_of_ne_zero fun zero => spent (congrArg some zero))
      let before := h.setCursor id (.sliced feed s (budget.map (· - 1)) position)
      have looks : Moves (F ∪ {id}) (F ∪ {id}) h before := moves_modifyStream F
      have atEnd := provides before (sameOn_modifyStream outside)
      rw [unspent, Bool.and_true]
      cases failing with
      | true =>
        obtain ⟨e, h₁, fails⟩ := atEnd
        exact ⟨e, _, (reaches_advance_sliced_iff spent).mpr ⟨_, h₁, fails, rfl, rfl⟩⟩
      | false =>
        obtain ⟨h₁, ends, within⟩ := atEnd
        exact ⟨h₁, reaches_advance_sliced_none spent ends,
          looks.within_trans (within.mono Set.subset_union_left)⟩
  | cons a as ih =>
    by_cases spent : budget = some 0
    · subst spent
      rw [Option.all_some, decide_eq_false (Nat.not_lt_zero _), Bool.and_false]
      exact ⟨h, reaches_advance_spent, .refl _ h⟩
    rw [Slice.upcoming, if_neg spent]
    let budget' := budget.map (· - 1)
    have farther : budget.all ((a :: as).length < ·) = budget'.all (as.length < ·) := by
      cases budget with
      | none => rfl
      | some n =>
        obtain ⟨k, rfl⟩ := Nat.exists_eq_succ_of_ne_zero fun zero => spent (congrArg some zero)
        simp [budget']
    -- The budget is charged before the stream underneath is pulled, the position moves after it.
    let before := h.setCursor id (.sliced feed s budget' position)
    have same : SameOn F h before := sameOn_modifyStream outside
    have found' : before.streams[id.index]? = some ⟨.sliced feed s budget' position, true⟩ :=
      getElem?_modifyStream (f := fun cell => { cell with cursor := _ }) found
    obtain ⟨v, h₁, F₁, F₂, pulls, moves, disjoint, outside₂, covers₁, found₁, first, others⟩ :=
      (provides.of_sameOn same).pull_beside outside (same.covers covers) found'
    have beside := (covers_union_iff.mp covers₁).2.mono Set.subset_union_left
    let after := h₁.setCursor id (.sliced feed s budget' (position + 1))
    have found₂ : after.streams[id.index]? = some ⟨.sliced feed s budget' (position + 1), true⟩ :=
      getElem?_modifyStream (f := fun cell => { cell with cursor := _ }) found₁
    have outside₁ : id ∉ F₁ := fun mem => Set.disjoint_left.mp disjoint mem (.inr rfl)
    have same₁ {K : Set StreamId} (outside : id ∉ K) : SameOn K h₁ after :=
      sameOn_modifyStream outside
    have moves' : Moves (F ∪ {id}) (F₁ ∪ (F₂ ∪ {id})) h after := by
      have looks : Moves (F ∪ {id}) (F ∪ {id}) h before := moves_modifyStream F
      have counts : Moves (F₁ ∪ F₂ ∪ {id}) (F₁ ∪ F₂ ∪ {id}) h₁ after := moves_modifyStream _
      rw [Set.union_assoc] at counts
      exact looks.trans (moves.trans counts)
    rw [farther]
    by_cases contains : s.contains position = true
    · rw [if_pos contains]
      refine ⟨v, after, F₁, F₂, reaches_advance_some_of_contains spent contains pulls, moves',
        disjoint, isLocal first (same₁ outside₁), ?_⟩
      have same₂ : SameOn F₂ h₁ (after.setBusy id false) :=
        (same₁ outside₂).trans (sameOn_modifyStream outside₂)
      refine provides_of_emits isLocal outside₂ (getElem?_modifyStream found₂)
        fun h₂ same' found₃ => ?_
      have same₃ := same₂.trans same'
      exact ih outside₂ (same₃.covers beside) found₃ (others.of_sameOn same₃)
    · -- An element that the slice leaves out is dropped within the same pull.
      rw [if_neg contains]
      have goesOn := ih outside₂ ((same₁ outside₂).covers beside) found₂
        (others.of_sameOn (same₁ outside₂))
      have kept : Moves (F ∪ {id}) (F₂ ∪ {id}) h after :=
        moves'.mono subset_rfl Set.subset_union_right
      exact goesOn.after kept fun _ _ reached =>
        reaches_advance_of_not_contains spent contains pulls reached

/-- A slice of a stream provides the slice of what is to come. -/
theorem provides_of_sliced {s : Slice} {budget : Option Nat} {position : Nat} (isLocal : Local Is)
    (outside : id ∉ F) (covers : h.Covers F)
    (found : h.streams[id.index]? = some ⟨.sliced feed s budget position, false⟩)
    (provides : Provides Is F h feed failing as) :
    Provides Is (F ∪ {id}) h id (failing && budget.all (as.length < ·))
      (s.upcoming budget position as) :=
  provides_of_emits isLocal outside found fun _ same found' =>
    emits_sliced isLocal outside (same.covers covers) found' (provides.of_sameOn same)

/-! ### Transformed elements -/

/-- Something becomes of the elements, if something becomes of each of them. -/
theorem exists_made {R : α → Option β → Prop} (failing : Bool) (each : ∀ a ∈ as, ∃ made, R a made) :
    ∃ bs failing', Made R failing as bs failing' := by
  induction as with
  | nil => exact ⟨[], failing, .finish⟩
  | cons a as ih =>
    obtain ⟨⟨made, first⟩, others⟩ := List.forall_mem_cons.mp each
    obtain ⟨bs, failing', rest⟩ := ih others
    cases made with
    | none => exact ⟨[], true, .failure first⟩
    | some b => exact ⟨b :: bs, failing', .element first rest⟩

/-- Where no element comes to nothing, there is as much as before. -/
theorem made_map {R : α → Option β → Prop} {g : α → β} (each : ∀ a ∈ as, R a (some (g a))) :
    Made R failing as (as.map g) failing := by
  induction as with
  | nil => exact .finish
  | cons a as ih =>
    obtain ⟨first, others⟩ := List.forall_mem_cons.mp each
    exact .element first (ih others)

/-- A cursor of transformed elements emits what is made of them. -/
theorem emits_mapped (isLocal' : Local Is') (made : Made (Transforms Is Is' t) failing as bs failing')
    (outside : id ∉ F) (covers : h.Covers F)
    (found : h.streams[id.index]? = some ⟨.mapped feed t, true⟩)
    (provides : Provides Is F h feed failing as) :
    Emits Is' F h id (.mapped feed t) failing' bs := by
  induction made generalizing F h with
  | finish =>
    have atEnd := provides h (.refl F h)
    cases failing with
    | true =>
      obtain ⟨e, h₁, fails⟩ := atEnd
      exact ⟨e, h₁, reaches_advance_mapped_iff.mpr (.inl ⟨e, fails, rfl⟩)⟩
    | false =>
      obtain ⟨h₁, ends, within⟩ := atEnd
      exact ⟨h₁, reaches_advance_mapped_none ends, within.mono Set.subset_union_left⟩
  | failure fails =>
    obtain ⟨v, h₁, F₁, F₂, pulls, -, -, -, covers₁, -, first, -⟩ :=
      provides.pull_beside outside covers found
    obtain ⟨e, h₂, fails⟩ := fails first (covers_union_iff.mp covers₁).1
    exact ⟨e, h₂, reaches_advance_mapped_iff.mpr (.inr (.inr ⟨v, h₁, _, pulls, fails, rfl⟩))⟩
  | element gives _ ih =>
    obtain ⟨v, h₁, F₁, F₂, pulls, moves, disjoint, outside₂, covers₁, found₁, first, others⟩ :=
      provides.pull_beside outside covers found
    obtain ⟨own, beside⟩ := covers_union_iff.mp covers₁
    obtain ⟨w, h₂, G, changes, moves', first'⟩ := gives first own
    -- The transform moves the streams of the element, and no others.
    have same : SameOn (F₂ ∪ {id}) h₁ h₂ := moves'.toWithin.sameOn disjoint beside
    refine ⟨w, h₂, G, F₂, reaches_advance_mapped_some pulls changes,
      moves.trans (moves'.frame (F₂ ∪ {id})), moves'.disjoint disjoint beside, first', ?_⟩
    have found₂ := (same.streams id (.inr rfl)).trans found₁
    have same₂ : SameOn F₂ h₁ (h₂.setBusy id false) :=
      (same.mono Set.subset_union_left).trans (sameOn_modifyStream outside₂)
    refine provides_of_emits isLocal' outside₂ (getElem?_modifyStream found₂)
      fun h₃ same' found₃ => ?_
    have same₃ := same₂.trans same'
    exact ih outside₂ (same₃.covers (beside.mono Set.subset_union_left)) found₃
      (others.of_sameOn same₃)

/-- A stream of transformed elements provides what is made of them. -/
theorem provides_of_mapped (isLocal' : Local Is')
    (made : Made (Transforms Is Is' t) failing as bs failing') (outside : id ∉ F)
    (covers : h.Covers F) (found : h.streams[id.index]? = some ⟨.mapped feed t, false⟩)
    (provides : Provides Is F h feed failing as) : Provides Is' (F ∪ {id}) h id failing' bs :=
  provides_of_emits isLocal' outside found fun _ same found' =>
    emits_mapped isLocal' made outside (same.covers covers) found' (provides.of_sameOn same)

/-! ### Parts in turn -/

/-- What is made of parts one after the other. -/
theorem Apportioned.inTurn {run : Value → (allowance : Nat) → Evaluation Value} (isLocal : Local Is)
    (isLocal' : Local Is') (all : Apportioned Is F h vs as) (covers : h.Covers F)
    (each : List.Forall₂ (Brings Is Is' run) as bs) :
    ∃ ws h' G, InTurn run vs h (.ok ws) h' ∧ Moves F G h h' ∧ Apportioned Is' G h' ws bs := by
  induction each generalizing F h vs with
  | nil =>
    obtain rfl : vs = [] := all
    exact ⟨[], h, F, .nil h, (Within.refl F h).moves subset_rfl, rfl⟩
  | cons brings _ ih =>
    obtain ⟨v, vs, F₁, F₂, rfl, sub, disjoint, first, others⟩ := all
    obtain ⟨covers₁, covers₂⟩ := covers_union_iff.mp (covers.mono sub)
    obtain ⟨w, h₁, G₁, gives, moves, first'⟩ := brings first covers₁
    have same := moves.toWithin.sameOn disjoint covers₂
    obtain ⟨ws, h₂, G₂, turns, moves', others'⟩ :=
      ih (others.of_sameOn isLocal same) (same.covers covers₂)
    -- What was made of the first part stays untouched by the others.
    have covers₁' := moves.covers covers₁
    have apart : Disjoint G₁ F₂ := moves.disjoint disjoint covers₂
    have same' : SameOn G₁ h₁ h₂ := moves'.toWithin.sameOn apart.symm covers₁'
    have whole : Moves (F₁ ∪ F₂) (G₁ ∪ G₂) h h₂ := by
      have second := moves'.frame G₁
      rw [Set.union_comm F₂, Set.union_comm G₂] at second
      exact (moves.frame F₂).trans second
    exact ⟨w :: ws, h₂, G₁ ∪ G₂, .value gives turns, whole.mono sub subset_rfl, w, ws, G₁, G₂, rfl,
      subset_rfl, (moves'.disjoint apart.symm covers₁').symm, isLocal' first' same', others'⟩

end Evaluation

end TreeQuery
