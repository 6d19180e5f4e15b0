import TreeQuery.Proofs.Evaluation.Feeding

/-!
# Values that share no streams

A value leads to the streams in it, and by way of these to the streams that they are on top of and
to those in the elements that they still have to give. It shares none if no stream is come upon
twice. If all sources list finitely many elements, with or without failures, then the value bears a
content, and it bears the same one in every other order of the members of objects, be they in the
value or in the elements of its streams.

## Main definitions

* `Evaluation.Unshared` — a value without links, and the streams that it leads to, each of them once

## Main statements

* `Evaluation.Unshared.exists_bears` — a content for all orders
-/

namespace TreeQuery

namespace Evaluation

open Host Run

mutual

/-- There are no links in the value, its records have a value for every field, and `F` has the
streams that it leads to, each of which is come upon once. They are sources that list elements and
then end or fail, slices of streams, and streams of transformed elements. -/
inductive Unshared (h : Host) : Set StreamId → Value → Prop
  | plain {v : Value} (partless : v.SettledWithin 0) (noLink : v.kind ≠ .link) : Unshared h ∅ v
  | array {F : Set StreamId} {vs : List Value} (items : UnsharedAll h F vs) :
      Unshared h F (.array vs)
  | object {F : Set StreamId} {ms : List (String × Value)} (names : (ms.map Prod.fst).Nodup)
      (members : UnsharedAll h F (ms.map Prod.snd)) : Unshared h F (.object ms)
  | record {F : Set StreamId} {type : RecordType} {vs : List Value}
      (length : vs.length = type.fields.length) (fields : UnsharedAll h F vs) :
      Unshared h F (.record type vs)
  | source {F : Set StreamId} {id : StreamId} {s : Source} {vs : List Value} {rest : List Item}
      (found : h.streams[id.index]? = some ⟨.source s, false⟩)
      (listed : s.supply = .listed (vs.map .element ++ rest))
      (ends : rest = [] ∨ ∃ e others, rest = .failure e :: others)
      (elements : UnsharedAll h F vs) (once : id ∉ F) : Unshared h (F ∪ {id}) (.stream id)
  | sliced {F : Set StreamId} {id feed : StreamId} {s : Slice} {budget : Option Nat}
      {position : Nat} (found : h.streams[id.index]? = some ⟨.sliced feed s budget position, false⟩)
      (under : Unshared h F (.stream feed)) (once : id ∉ F) : Unshared h (F ∪ {id}) (.stream id)
  | mapped {F : Set StreamId} {id feed : StreamId} {t : Transform}
      (found : h.streams[id.index]? = some ⟨.mapped feed t, false⟩) (respects : Respects t)
      (under : Unshared h F (.stream feed)) (once : id ∉ F) : Unshared h (F ∪ {id}) (.stream id)

/-- The same for values one after the other. -/
inductive UnsharedAll (h : Host) : Set StreamId → List Value → Prop
  | nil : UnsharedAll h ∅ []
  | cons {F G : Set StreamId} {v : Value} {vs : List Value} (first : Unshared h F v)
      (rest : UnsharedAll h G vs) (once : Disjoint F G) : UnsharedAll h (F ∪ G) (v :: vs)

end

variable {F : Set StreamId} {h h' : Host} {id : StreamId} {s : Source} {v v' : Value}
  {vs vs' : List Value} {items rest : List Item} {cs : List Content} {failing : Bool}

/-! ### A content for all orders -/

mutual

theorem Unshared.covers : ∀ {F v}, Unshared h F v → h.Covers F
  | _, _, .plain .. => nofun
  | _, _, .array items => items.covers
  | _, _, .object _ members => members.covers
  | _, _, .record _ fields => fields.covers
  | _, _, .source found _ _ elements _ =>
    covers_union_iff.mpr ⟨elements.covers, covers_singleton found⟩
  | _, _, .sliced found under _ => covers_union_iff.mpr ⟨under.covers, covers_singleton found⟩
  | _, _, .mapped found _ under _ => covers_union_iff.mpr ⟨under.covers, covers_singleton found⟩

theorem UnsharedAll.covers : ∀ {F vs}, UnsharedAll h F vs → h.Covers F
  | _, _, .nil => nofun
  | _, _, .cons first rest _ => covers_union_iff.mpr ⟨first.covers, rest.covers⟩

end

/-- A footprint is there in the other host, too. -/
theorem covers_of_reordered (same : h.Reordered h') (covers : h.Covers F) : h'.Covers F :=
  fun id mem => same.size.symm ▸ covers id mem

/-- Whether a source ends or fails after its elements is the same in all orders. -/
theorem exists_failing (ends : rest = [] ∨ ∃ e others, rest = .failure e :: others) :
    ∃ failing : Bool, ∀ rest', List.Forall₂ Item.Reordered rest rest' →
      if failing then ∃ e others, rest' = .failure e :: others else rest' = [] := by
  rcases ends with rfl | ⟨e, others, rfl⟩
  · exact ⟨false, fun rest' each => List.forall₂_nil_left_iff.mp each⟩
  · refine ⟨true, fun rest' each => ?_⟩
    obtain ⟨_, others', rfl, -, rfl⟩ := List.forall₂_cons_left_iff.mp each
    exact ⟨e, others', rfl⟩

/-- A stream bears what it feeds. -/
theorem exists_of_bears_stream {c : Content} (bears : Bears F h (.stream id) c) :
    ∃ cs failing, c = .stream cs failing ∧ Feeds F h id failing cs := by
  cases c with
  | plain w =>
    obtain ⟨rfl, partless, -⟩ := bears
    exact partless.elim
  | stream cs failing =>
    obtain ⟨_, same, feeds⟩ := bears
    cases same
    exact ⟨cs, failing, rfl, feeds⟩
  | array cs =>
    obtain ⟨_, same, -⟩ := bears
    cases same
  | object names cs =>
    obtain ⟨_, _, same, -⟩ := bears
    cases same
  | record type cs =>
    obtain ⟨_, same, -⟩ := bears
    cases same

/-- What a stream feeds in all orders, if it bears one content in all of them. -/
theorem exists_feeds_of_bears
    (all : ∃ c, ∀ h' v', h.Reordered h' → (Value.stream id).Reordered v' → Bears F h' v' c) :
    ∃ cs failing, ∀ h', h.Reordered h' → Feeds F h' id failing cs := by
  obtain ⟨c, bears⟩ := all
  obtain ⟨cs, failing, rfl, -⟩ := exists_of_bears_stream (bears h _ (reordered_refl h) rfl)
  refine ⟨cs, failing, fun h' same => ?_⟩
  obtain ⟨_, eq, feeds⟩ := bears h' _ same rfl
  cases eq
  exact feeds

mutual

/-- What a value bears does not depend on the order of members. -/
theorem Unshared.exists_bears : ∀ {F v}, Unshared h F v →
    ∃ c, ∀ h' v', h.Reordered h' → v.Reordered v' → Bears F h' v' c
  | _, v, .plain partless noLink => by
    refine ⟨.plain v, fun h' v' _ reordered => ?_⟩
    rw [reordered.eq_of_partless partless]
    exact ⟨rfl, partless, noLink⟩
  | _, _, .array items => by
    obtain ⟨cs, all⟩ := items.exists_bears
    refine ⟨.array cs, ?_⟩
    rintro h' _ same ⟨ws, rfl, each⟩
    exact ⟨ws, rfl, all h' ws same (Value.reorderedAll_iff.mp each)⟩
  | _, _, @Unshared.object _ _ ms names members => by
    obtain ⟨cs, all⟩ := members.exists_bears
    refine ⟨.object (ms.map Prod.fst) cs, ?_⟩
    rintro h' _ same ⟨ns, given, rfl, each, moved⟩
    have each' := Value.reorderedMembers_iff.mp each
    have values : List.Forall₂ Value.Reordered (ms.map Prod.snd) (given.map Prod.snd) :=
      List.forall₂_map_left_iff.mpr
        (List.forall₂_map_right_iff.mpr (each'.imp fun _ _ => And.right))
    -- Members that have been moved keep their names, each with its own value.
    have named : ms.map Prod.fst = given.map Prod.fst := by
      rw [← List.forall₂_eq_eq_eq, List.forall₂_map_left_iff, List.forall₂_map_right_iff]
      exact each'.imp fun _ _ => And.left
    exact ⟨ns, given, rfl, moved.symm, named.symm, names, all h' _ same values⟩
  | _, _, @Unshared.record _ _ type vs length fields => by
    obtain ⟨cs, all⟩ := fields.exists_bears
    refine ⟨.record type cs, ?_⟩
    rintro h' _ same ⟨ws, rfl, each⟩
    have each' := Value.reorderedAll_iff.mp each
    exact ⟨ws, rfl, each'.length_eq.symm.trans length, all h' ws same each'⟩
  | _, _, @Unshared.source _ _ id _ _ _ found listed ends elements once => by
    obtain ⟨cs, all⟩ := elements.exists_bears
    obtain ⟨failing, ends'⟩ := exists_failing ends
    refine ⟨.stream cs failing, ?_⟩
    rintro h' _ same rfl
    -- The source of the other host lists elements that differ in such orders alone.
    obtain ⟨s', items, found', listed', each⟩ := same.listed id _ _ found listed
    obtain ⟨ws, rest', rfl, each', left⟩ := exists_of_reordered_items each
    have covers := covers_of_reordered same elements.covers
    exact ⟨id, rfl, feeds_of_listed once covers found' listed' (ends' rest' left)
      (all h' ws same each')⟩
  | _, _, @Unshared.sliced _ _ id _ s budget position found under once => by
    obtain ⟨cs, failing, feeds⟩ := exists_feeds_of_bears under.exists_bears
    refine ⟨.stream (s.upcoming budget position cs) (failing && budget.all (cs.length < ·)), ?_⟩
    rintro h' _ same rfl
    exact ⟨id, rfl, feeds_of_sliced once (covers_of_reordered same under.covers)
      (same.onTop id _ found nofun) (feeds h' same)⟩
  | _, _, @Unshared.mapped _ _ id feed _ found respects under once => by
    obtain ⟨cs, failing, feeds⟩ := exists_feeds_of_bears under.exists_bears
    obtain ⟨ds, failing', feeds'⟩ := exists_feeds_of_mapped failing fun c (_ : c ∈ cs) => respects c
    refine ⟨.stream ds failing', ?_⟩
    rintro h' _ same rfl
    exact ⟨id, rfl, feeds' _ h' id feed once (covers_of_reordered same under.covers)
      (same.onTop id _ found nofun) (feeds h' same)⟩

theorem UnsharedAll.exists_bears : ∀ {F vs}, UnsharedAll h F vs →
    ∃ cs, ∀ h' vs', h.Reordered h' → List.Forall₂ Value.Reordered vs vs' → BearsAll F h' vs' cs
  | _, _, .nil => ⟨[], fun _ _ _ each => List.forall₂_nil_left_iff.mp each⟩
  | _, _, @UnsharedAll.cons _ F G _ _ first rest once => by
    obtain ⟨c, bears⟩ := first.exists_bears
    obtain ⟨cs, all⟩ := rest.exists_bears
    refine ⟨c :: cs, fun h' vs' same each => ?_⟩
    obtain ⟨w, ws, reordered, each', rfl⟩ := List.forall₂_cons_left_iff.mp each
    exact ⟨w, ws, F, G, rfl, subset_rfl, once, bears h' w same reordered, all h' ws same each'⟩

end

end Evaluation

end TreeQuery
