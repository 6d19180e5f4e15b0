import Mathlib
import TreeQuery.Host

/-!
# Footprints

What an evaluation does to a host is local: it moves some streams, adds others at the end, and
leaves the rest alone. A footprint is the set of streams that it may move. Two evaluations with
disjoint footprints do not get in each other's way, and neither sees streams that were added
meanwhile.

## Main definitions

* `Host.SameOn` — two hosts that do not differ on a footprint
* `Host.Within` — nothing outside of a footprint has changed
* `Host.Moves` — and what has become of the footprint, with streams that were added

## Main statements

* `Host.Moves.trans` — one evaluation after the other
* `Host.Moves.frame` — streams beside the footprint stay
* `Host.Within.sameOn` — disjoint footprints do not get in each other's way
-/

namespace TreeQuery

namespace Host

variable {F F' G G' : Set StreamId} {h h' h'' : Host} {id id' : StreamId}

/-- The hosts do not differ in the streams of `F`, nor in names and links. -/
structure SameOn (F : Set StreamId) (h h' : Host) : Prop where
  streams : ∀ id ∈ F, h'.streams[id.index]? = h.streams[id.index]?
  names : h'.names = h.names
  links : h'.links = h.links

/-- From the first host to the second, nothing has changed but the streams of `F` and the log.
Streams may have been added. -/
structure Within (F : Set StreamId) (h h' : Host) : Prop where
  streams : ∀ id ∉ F, id.index < h.streams.size → h'.streams[id.index]? = h.streams[id.index]?
  grows : h.streams.size ≤ h'.streams.size
  names : h'.names = h.names
  links : h'.links = h.links

/-- The host has all the streams of `F`. -/
def Covers (h : Host) (F : Set StreamId) : Prop :=
  ∀ id ∈ F, id.index < h.streams.size

/-- Only streams of `F` have changed, and those of `G` are among them or were added. -/
structure Moves (F G : Set StreamId) (h h' : Host) : Prop extends Within F h h' where
  stems : ∀ id ∈ G, id ∈ F ∨ (h.streams.size ≤ id.index ∧ id.index < h'.streams.size)

/-! ### The same streams -/

theorem SameOn.refl (F : Set StreamId) (h : Host) : SameOn F h h :=
  ⟨fun _ _ => rfl, rfl, rfl⟩

theorem SameOn.trans (first : SameOn F h h') (second : SameOn F h' h'') : SameOn F h h'' where
  streams id mem := (second.streams id mem).trans (first.streams id mem)
  names := second.names.trans first.names
  links := second.links.trans first.links

theorem SameOn.mono (same : SameOn F h h') (sub : G ⊆ F) : SameOn G h h' :=
  ⟨fun id mem => same.streams id (sub mem), same.names, same.links⟩

/-! ### Changes within a footprint -/

theorem Within.refl (F : Set StreamId) (h : Host) : Within F h h :=
  ⟨fun _ _ _ => rfl, Nat.le_refl _, rfl, rfl⟩

theorem Within.mono (within : Within F h h') (sub : F ⊆ G) : Within G h h' :=
  ⟨fun id mem => within.streams id fun mem' => mem (sub mem'), within.grows, within.names,
    within.links⟩

theorem Covers.mono (covers : h.Covers F) (sub : G ⊆ F) : h.Covers G :=
  fun id mem => covers id (sub mem)

theorem covers_singleton {cell : StreamCell} (found : h.streams[id.index]? = some cell) :
    h.Covers {id} := by
  rintro _ rfl
  exact (Array.getElem?_eq_some_iff.mp found).1

theorem covers_union_iff : h.Covers (F ∪ G) ↔ h.Covers F ∧ h.Covers G := by
  simp only [Covers, Set.mem_union, or_imp, forall_and]

theorem SameOn.covers (same : SameOn F h h') (covers : h.Covers F) : h'.Covers F := by
  intro id mem
  have found := same.streams id mem
  rw [Array.getElem?_eq_getElem (covers id mem)] at found
  exact (Array.getElem?_eq_some_iff.mp found).1

/-- What happens in one footprint does not touch another one. -/
theorem Within.sameOn (within : Within F h h') (disjoint : Disjoint F G) (covers : h.Covers G) :
    SameOn G h h' where
  streams id mem := by
    have outside : id ∉ F := fun inside => Set.disjoint_left.mp disjoint inside mem
    exact within.streams id outside (covers id mem)
  names := within.names
  links := within.links

/-! ### What footprints become -/

theorem Within.moves (within : Within F h h') (sub : G ⊆ F) : Moves F G h h' :=
  ⟨within, fun _ mem => .inl (sub mem)⟩

theorem Moves.mono (moves : Moves F G h h') (sub : F ⊆ F') (sub' : G' ⊆ G) : Moves F' G' h h' :=
  ⟨moves.toWithin.mono sub, fun id mem =>
    (moves.stems id (sub' mem)).imp_left fun inside => sub inside⟩

/-- A second evaluation may touch what the first one added; that was not there before. -/
theorem Moves.within_trans (first : Moves F G h h') (second : Within G h' h'') :
    Within F h h'' where
  streams id mem below := by
    have mem' : id ∉ G := by
      intro mem'
      rcases first.stems id mem' with inside | ⟨above, -⟩
      · exact mem inside
      · exact absurd below (Nat.not_lt_of_le above)
    have below' := Nat.lt_of_lt_of_le below first.grows
    exact (second.streams id mem' below').trans (first.streams id mem below)
  grows := Nat.le_trans first.grows second.grows
  names := second.names.trans first.names
  links := second.links.trans first.links

theorem Moves.trans (first : Moves F G h h') (second : Moves G G' h' h'') : Moves F G' h h'' where
  toWithin := first.within_trans second.toWithin
  stems id mem := by
    rcases second.stems id mem with inside | ⟨above, below⟩
    · rcases first.stems id inside with inside | ⟨above, below⟩
      · exact .inl inside
      · exact .inr ⟨above, Nat.lt_of_lt_of_le below second.grows⟩
    · exact .inr ⟨Nat.le_trans first.grows above, below⟩

/-- Streams that stand beside the footprint are still there. -/
theorem Moves.frame (moves : Moves F G h h') (K : Set StreamId) : Moves (F ∪ K) (G ∪ K) h h' where
  toWithin := moves.toWithin.mono Set.subset_union_left
  stems := by
    rintro id (mem | mem)
    · exact (moves.stems id mem).imp_left .inl
    · exact .inl (.inr mem)

theorem Moves.covers (moves : Moves F G h h') (covers : h.Covers F) : h'.Covers G := by
  intro id mem
  rcases moves.stems id mem with inside | ⟨-, below⟩
  · exact Nat.lt_of_lt_of_le (covers id inside) moves.grows
  · exact below

/-- What was disjoint before stays so, whatever was added. -/
theorem Moves.disjoint (moves : Moves F G h h') (disjoint : Disjoint F F') (covers : h.Covers F') :
    Disjoint G F' := by
  refine Set.disjoint_left.mpr fun id mem mem' => ?_
  rcases moves.stems id mem with inside | ⟨above, -⟩
  · exact Set.disjoint_left.mp disjoint inside mem'
  · exact absurd (covers id mem') (Nat.not_lt_of_le above)

/-! ### Single changes -/

theorem within_record (event : Event) (h : Host) : Within ∅ h (h.record event) :=
  ⟨fun _ _ _ => rfl, Nat.le_refl _, rfl, rfl⟩

theorem sameOn_record (F : Set StreamId) (event : Event) (h : Host) : SameOn F h (h.record event) :=
  ⟨fun _ _ => rfl, rfl, rfl⟩

theorem getElem?_modifyStream_of_ne {f : StreamCell → StreamCell} (other : id' ≠ id) :
    (h.modifyStream id f).streams[id'.index]? = h.streams[id'.index]? := by
  have other' : id.index ≠ id'.index := by
    intro same
    exact other (congrArg StreamId.mk same.symm)
  simp [modifyStream, Array.getElem?_modify, other']

theorem getElem?_modifyStream {f : StreamCell → StreamCell} {cell : StreamCell}
    (found : h.streams[id.index]? = some cell) :
    (h.modifyStream id f).streams[id.index]? = some (f cell) := by
  simp [modifyStream, Array.getElem?_modify, found]

theorem within_modifyStream (id : StreamId) (f : StreamCell → StreamCell) (h : Host) :
    Within {id} h (h.modifyStream id f) where
  streams _ outside _ := getElem?_modifyStream_of_ne outside
  grows := by simp [modifyStream]
  names := rfl
  links := rfl

/-- A stream that changes is no matter for footprints that it does not belong to. -/
theorem sameOn_modifyStream {f : StreamCell → StreamCell} (outside : id ∉ F) :
    SameOn F h (h.modifyStream id f) where
  streams _ mem := getElem?_modifyStream_of_ne fun same => outside (same ▸ mem)
  names := rfl
  links := rfl

/-- A stream that changes stays in its footprint. -/
theorem moves_modifyStream {f : StreamCell → StreamCell} (F : Set StreamId) :
    Moves (F ∪ {id}) (F ∪ {id}) h (h.modifyStream id f) :=
  ((within_modifyStream id f h).mono Set.subset_union_right).moves subset_rfl

theorem within_addStream (c : Cursor) (h : Host) : Within ∅ h (h.addStream c).2 where
  streams id _ below := by simp [addStream, Array.getElem?_push, Nat.ne_of_lt below]
  grows := by simp [addStream]
  names := rfl
  links := rfl

/-- An added stream joins a footprint. -/
theorem moves_addStream (c : Cursor) (h : Host) (F : Set StreamId) :
    Moves F (F ∪ {(h.addStream c).1}) h (h.addStream c).2 where
  toWithin := (within_addStream c h).mono (Set.empty_subset F)
  stems := by
    rintro id (mem | rfl)
    · exact .inl mem
    · exact .inr ⟨Nat.le_refl _, by simp [addStream]⟩

theorem getElem?_addStream (c : Cursor) (h : Host) :
    (h.addStream c).2.streams[(h.addStream c).1.index]? = some ⟨c, false⟩ := by
  simp [addStream]

end Host

end TreeQuery
