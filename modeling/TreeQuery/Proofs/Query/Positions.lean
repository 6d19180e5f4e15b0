import TreeQuery.Proofs.Evaluation.Providing
import TreeQuery.Proofs.Query.Portions

/-!
# Selectors of positions

Arrays, strings and byte strings are sequences: their elements are values, characters and bytes. An
index selects the element at its position, and a slice a sequence of the same kind, with the
elements that the indices in the slice select. The slice of a stream with these elements gives the
same.

## Main definitions

* `Value.elements?` — the elements that indices select

## Main statements

* `Slice.mem_bounds_iff` — bounds clipped to a length, and positions with the length unknown
* `Query.positions_agree` — what indices and slices select
-/

namespace TreeQuery

open Evaluation Run

open Stream' (Seq)

namespace Slice

variable {α β : Type} {s : Slice} {n i : Nat} {xs : List α}

/-! ### Bounds -/

/-- The stop of a slice in a sequence of `n` elements. -/
theorem snd_bounds_le (s : Slice) (n : Nat) : (s.bounds n).2 ≤ n := by
  simp only [bounds]
  split
  · exact Nat.le_refl n
  · cases s.stop with
    | none => exact Nat.le_refl n
    | some stop => exact Nat.min_le_right stop n

theorem fst_bounds_le (s : Slice) (n : Nat) : (s.bounds n).1 ≤ (s.bounds n).2 := by
  simp only [bounds]
  split
  · exact Nat.zero_le n
  · exact Nat.min_le_right ..

/-- Clipping loses no position of the sequence. -/
theorem mem_bounds_iff :
    (s.bounds n).1 ≤ i ∧ i < (s.bounds n).2 ↔ i < n ∧ s.contains i = true := by
  obtain ⟨start, stop, all⟩ := s
  cases all <;> cases stop <;> simp [bounds, contains] <;> omega

/-- The positions of a slice in a sequence of `n` elements follow each other. -/
theorem filter_contains_range (s : Slice) (n : Nat) :
    (List.range n).filter (fun i => s.contains i) =
      List.range' (s.bounds n).1 ((s.bounds n).2 - (s.bounds n).1) := by
  -- Both sides ascend, so it is enough that they have the same members.
  have antisymm (a b : Nat) (lt : a < b) (gt : b < a) : a = b := absurd lt (Nat.lt_asymm gt)
  refine List.Perm.eq_of_pairwise (fun a b _ _ => antisymm a b)
    (List.pairwise_lt_range.filter _) List.pairwise_lt_range' ?_
  refine (List.perm_ext_iff_of_nodup (List.nodup_range.filter _) List.nodup_range').mpr fun i => ?_
  have clipped := fst_bounds_le s n
  have mem := mem_bounds_iff (s := s) (n := n) (i := i)
  rw [List.mem_filter, List.mem_range, List.mem_range'_1, ← mem]
  omega

/-! ### Elements at positions -/

theorem apply_map (f : α → β) (xs : List α) : s.apply (xs.map f) = (s.apply xs).map f := by
  simp only [apply, List.length_map, List.map_take, List.map_drop]

theorem length_apply (s : Slice) (xs : List α) :
    (s.apply xs).length = (s.bounds xs.length).2 - (s.bounds xs.length).1 := by
  rw [apply, List.length_drop, List.length_take, Nat.min_eq_left (snd_bounds_le s xs.length)]

/-- The elements of a slice are those at its positions, in order. -/
theorem forall₂_apply (s : Slice) (xs : List α) :
    List.Forall₂ (fun i x => xs[i]? = some x)
      ((List.range xs.length).filter fun i => s.contains i) (s.apply xs) := by
  rw [filter_contains_range]
  refine List.forall₂_iff_get.mpr ⟨by rw [List.length_range', length_apply],
    fun j inside inside' => ?_⟩
  have before : (s.bounds xs.length).1 + j < (s.bounds xs.length).2 := by
    rw [length_apply] at inside'
    omega
  have here : (s.apply xs)[j]? = xs[(s.bounds xs.length).1 + j]? := by
    rw [apply, List.getElem?_drop, List.getElem?_take_of_lt before]
  rw [List.get_eq_getElem, List.get_eq_getElem, List.getElem_range', Nat.one_mul, ← here,
    List.getElem?_eq_getElem inside']

theorem apply_of_all (all : s.all = true) (xs : List α) : s.apply xs = xs := by
  simp [apply, bounds, all]

/-! ### Elements that come one by one -/

theorem upcoming_none_take (position : Nat) (xs : List α) :
    s.upcoming none position (xs.take n) = s.upcoming (some n) position xs := by
  induction xs generalizing n position with
  | nil => rw [List.take_nil, upcoming, upcoming]
  | cons x xs ih =>
    cases n with
    | zero => rw [List.take_zero, upcoming, upcoming, if_pos rfl]
    | succ n => simp [upcoming, ih]

/-- Without failures, a slice keeps its elements. -/
theorem keepFrom_map_ok (position : Nat) (vs : List Value) :
    s.keepFrom position (vs.map .ok) = (s.upcoming none position vs).map .ok := by
  induction vs generalizing position with
  | nil => rfl
  | cons v vs ih =>
    simp only [List.map_cons, upcoming, reduceCtorEq, if_false, Option.map_none]
    split
    · next contains => rw [keepFrom_cons_of_contains contains, ih, List.map_cons]
    · next skipped => rw [keepFrom_cons_of_not_contains skipped, ih]

end Slice

namespace Value

variable {v : Value} {xs : List Value} {h : Host}

/-- The elements of a sequence: those of an array, or the characters of a string, or the bytes of a
byte string. -/
def elements? : Value → Option (List Value)
  | array items => some items
  | string text => some (text.toList.map fun c => .string (.singleton c))
  | bytes bs => some (bs.map fun b => .integer (.ofNat b.toNat))
  | _ => none

theorem size?_of_elements? (elements : v.elements? = some xs) : v.size? = some xs.length := by
  cases v <;> cases elements <;> simp [size?, String.length_toList]

theorem kind_of_elements? (elements : v.elements? = some xs) :
    v.kind ≠ .link ∧ v.kind ≠ .stream := by
  cases v <;> cases elements <;> exact ⟨nofun, nofun⟩

end Value

namespace Evaluation

variable {v : Value} {xs : List Value} {h : Host}

theorem reaches_length (elements : v.elements? = some xs) :
    Reaches (fun n => eval n .length v) h (.ok (.ofCount xs.length)) h := by
  obtain ⟨noLink, noStream⟩ := Value.kind_of_elements? elements
  refine ⟨1, ?_⟩
  dsimp only
  rw [eval_length noLink noStream, Value.size?_of_elements? elements]
  rfl

/-- An index selects the element at its position, or fails. -/
theorem reaches_index (elements : v.elements? = some xs) (i : Nat) :
    Reaches (fun n => eval n (.select (.index i)) v) h
      (match xs[i]? with
        | some w => .ok w
        | none => .error (.indexOutOfRange i xs.length)) h := by
  refine reaches_eval_select.mpr ⟨1, ?_⟩
  cases v with
  | array items =>
    cases elements
    simp only [select, elementAt]
    cases xs[i]? <;> rfl
  | string text =>
    cases elements
    simp only [select, elementAt, List.getElem?_map, List.length_map]
    cases text.toList[i]? <;> rfl
  | bytes bs =>
    cases elements
    simp only [select, elementAt, List.getElem?_map, List.length_map]
    cases bs[i]? <;> rfl
  | _ => cases elements

/-- A slice selects a sequence of the same kind. -/
theorem exists_reaches_slice (elements : v.elements? = some xs) (s : Slice) :
    ∃ w, Reaches (fun n => eval n (.select (.slice s)) v) h (.ok w) h ∧ w.kind = v.kind ∧
      w.elements? = some (s.apply xs) := by
  have once {w : Value} (selects : (select 1 (.slice s) v).outcome h = some (.ok w, h)) :
      Reaches (fun n => eval n (.select (.slice s)) v) h (.ok w) h :=
    reaches_eval_select.mpr ⟨1, selects⟩
  cases v with
  | array items =>
    cases elements
    exact ⟨.array (s.apply xs), once (by rw [select]; rfl), rfl, rfl⟩
  | string text =>
    cases elements
    refine ⟨.string (.ofList (s.apply text.toList)), once (by rw [select]; rfl), rfl, ?_⟩
    rw [Value.elements?, String.toList_ofList, Slice.apply_map]
  | bytes bs =>
    cases elements
    refine ⟨.bytes (s.apply bs), once (by rw [select]; rfl), rfl, ?_⟩
    rw [Value.elements?, Slice.apply_map]
  | _ => cases elements

section Stream

variable {K : Set StreamId} {feed : StreamId}

/-- The slice of a stream without failures gives its elements at the positions of the slice. -/
theorem exists_collects_slice (outside : (⟨h.streams.size⟩ : StreamId) ∉ K)
    (carries : Carries (insert ⟨h.streams.size⟩ K) feed (Seq.ofList (xs.map .ok)) h) (s : Slice) :
    ∃ id h₁ h₂, Reaches (fun n => eval n (.select (.slice s)) (.stream feed)) h
      (.ok (.stream id)) h₁ ∧ Collects id h₁ (.ok (s.apply xs)) h₂ := by
  have ended : (Seq.ofList (xs.map .ok : List Given)).TerminatedAt xs.length :=
    (Seq.ofList_get? ..).trans (List.getElem?_eq_none (List.length_map ..).le)
  by_cases whole : s.all = true
  · -- This is no slice, but the stream itself.
    have all : allGiven ((Seq.ofList (xs.map .ok)).take xs.length) = .ok (s.apply xs) := by
      rw [allGiven_eq_ok_iff, take_ofList, Slice.apply_of_all whole, List.take_of_length_le]
      exact (List.length_map ..).le
    obtain ⟨g, collects⟩ :=
      (carries xs.length).exists_oneByOne (fun v _ => idle_pure v) (.inl ended)
    exact ⟨feed, h, g, reaches_eval_select.mpr (reaches_select_slice_stream_all whole),
      all ▸ collects⟩
  · have part : s.all = false := Bool.eq_false_iff.mpr whole
    have last : ∃ n, s.Spans n ∧ ((Seq.ofList (xs.map .ok : List Given)).TerminatedAt n ∨
          s.stop = some n) ∧
        s.keep ((Seq.ofList (xs.map .ok)).take n) = (s.apply xs).map .ok := by
      rw [← Slice.upcoming_eq_apply part]
      cases stop : s.stop with
      | none =>
        refine ⟨xs.length, fun stop' same => ?_, .inl ended, ?_⟩
        · rw [stop] at same
          cases same
        · rw [take_ofList, List.take_of_length_le (List.length_map ..).le, Slice.keep_eq_keepFrom,
            Slice.keepFrom_map_ok]
      | some stop' =>
        refine ⟨stop', Slice.spans_of_stop stop, .inr rfl, ?_⟩
        rw [take_ofList, ← List.map_take, Slice.keep_eq_keepFrom, Slice.keepFrom_map_ok,
          Slice.upcoming_none_take]
    obtain ⟨g, collects⟩ := (collects_ok_iff outside carries).mpr last
    exact ⟨_, _, g, reaches_eval_select.mpr (reaches_select_slice_stream whole), collects⟩

end Stream

end Evaluation

namespace Query

/-- Bounds clipped to a length are in order and within it, and clip away no position. On an array, a
string or a byte string, `length` counts the elements; an index gives the element at its position,
or fails where there is none; a slice gives a sequence of the same kind, with what the indices in
it give, in order. A slice of a stream of these elements gives the same. -/
theorem positions_agree :
    (∀ (s : Slice) (n : Nat), (s.bounds n).1 ≤ (s.bounds n).2 ∧ (s.bounds n).2 ≤ n ∧
      ∀ i, (s.bounds n).1 ≤ i ∧ i < (s.bounds n).2 ↔ i < n ∧ s.contains i = true) ∧
    (∀ v : Value, (∃ xs, v.elements? = some xs) ↔
      v.kind = .array ∨ v.kind = .string ∨ v.kind = .bytes) ∧
    ∀ (v : Value) (xs : List Value) (h : Host), v.elements? = some xs →
      Reaches (fun n => eval n .length v) h (.ok (.ofCount xs.length)) h ∧
      (∀ i, (∀ x, xs[i]? = some x → Reaches (fun n => eval n (.select (.index i)) v) h (.ok x) h) ∧
        (xs.length ≤ i → Reaches (fun n => eval n (.select (.index i)) v) h
          (.error (.indexOutOfRange i xs.length)) h)) ∧
      ∀ s : Slice, ∃ w ys, Reaches (fun n => eval n (.select (.slice s)) v) h (.ok w) h ∧
        w.kind = v.kind ∧ w.elements? = some ys ∧
        List.Forall₂ (fun i y => Reaches (fun n => eval n (.select (.index i)) v) h (.ok y) h)
          ((List.range xs.length).filter fun i => s.contains i) ys ∧
        ∀ {K : Set StreamId} {g : Host} {feed : StreamId}, ⟨g.streams.size⟩ ∉ K →
          Carries (insert ⟨g.streams.size⟩ K) feed (Seq.ofList (xs.map .ok)) g →
          ∃ id g₁ g₂, Reaches (fun n => eval n (.select (.slice s)) (.stream feed)) g
            (.ok (.stream id)) g₁ ∧ Collects id g₁ (.ok ys) g₂ := by
  have index {v : Value} {xs : List Value} {h : Host} (elements : v.elements? = some xs) {i : Nat}
      {x : Value} (here : xs[i]? = some x) :
      Reaches (fun n => eval n (.select (.index i)) v) h (.ok x) h := by
    have reached := reaches_index elements i (h := h)
    rwa [here] at reached
  refine ⟨fun s n => ⟨s.fst_bounds_le n, s.snd_bounds_le n, fun i => Slice.mem_bounds_iff⟩,
    fun v => ?_, fun v xs h elements => ⟨reaches_length elements, fun i => ⟨fun x => index elements,
      fun beyond => ?_⟩, fun s => ?_⟩⟩
  · cases v <;> simp [Value.elements?, Value.kind]
  · have reached := reaches_index elements i (h := h)
    rwa [List.getElem?_eq_none beyond] at reached
  · obtain ⟨w, selects, kind, elements'⟩ := exists_reaches_slice elements s (h := h)
    exact ⟨w, s.apply xs, selects, kind, elements',
      (s.forall₂_apply xs).imp fun i y => index elements,
      fun outside carries => exists_collects_slice outside carries s⟩

/-- A stream of the characters of a text. -/
def charactersHost : Host :=
  ⟨#[], #[⟨.source ⟨"characters", true,
    .listed (["a", "b", "c"].map fun s => .element (.string s)), 0⟩, false⟩], [], #[]⟩

/-- Three characters have no fourth one; what a slice takes of them, it takes of a stream too. -/
theorem positions_agree_characters :
    Reaches (fun n => eval n (.select (.index 3)) (.string "abc")) .empty
      (.error (.indexOutOfRange 3 3)) .empty ∧
    ∃ w ys id g₁ g₂, Reaches (fun n => eval n (.select (.slice (.between 1 none))) (.string "abc"))
        .empty (.ok w) .empty ∧ w.elements? = some ys ∧
      Reaches (fun n => eval n (.select (.slice (.between 1 none))) (.stream ⟨0⟩)) charactersHost
        (.ok (.stream id)) g₁ ∧ Collects id g₁ (.ok ys) g₂ := by
  obtain ⟨-, -, agree⟩ := positions_agree
  obtain ⟨-, indices, slices⟩ := agree (.string "abc") [.string "a", .string "b", .string "c"]
    .empty (by simp [Value.elements?])
  obtain ⟨w, ys, selects, -, elements, -, streams⟩ := slices (.between 1 none)
  have carries : Carries (insert ⟨charactersHost.streams.size⟩ ∅) ⟨0⟩
      (Seq.ofList ([.string "a", .string "b", .string "c"].map .ok)) charactersHost :=
    carries_listed (by rintro (⟨⟨⟩⟩ | ⟨⟨⟩⟩)) rfl
  obtain ⟨id, g₁, g₂, selects', collects⟩ := streams (Set.notMem_empty _) carries
  exact ⟨(indices 3).2 (by decide), w, ys, id, g₁, g₂, selects, elements, selects', collects⟩

end Query

end TreeQuery
