import TreeQuery.Host.Building
import TreeQuery.Proofs.Host.Footprint
import TreeQuery.Value.Closed

/-!
# Regions of a host

A region is a part of a host that holds whatever its own links, streams and names lead to: an
evaluation that starts within it never comes upon anything else. So it does not matter what stands
beside the region, and what stands there stays as it is.

What is added to a host while it is at work belongs to the region, so a sealed region has all
identities that are not taken yet.

## Main definitions

* `Region` — links, streams and names
* `Value.In`, `Blueprint.In`, `Cursor.In` — what mentions nothing beyond a region
* `Host.Encloses` — a host where a region leads nowhere else
* `Host.Sealed` — such a host, with all that may be added to it
* `Host.Beside` — nothing beside a region has changed

## Main statements

* `Host.Encloses.sealed` — a region becomes sealed by all that may be added
-/

namespace TreeQuery

/-- Some links, streams and names of a host. -/
structure Region where
  links : Set LinkId
  streams : Set StreamId
  names : Set String

namespace Region

/-- The second region has all that the first one has. -/
structure Within (R S : Region) : Prop where
  links : R.links ⊆ S.links
  streams : R.streams ⊆ S.streams
  names : R.names ⊆ S.names

variable {R S T : Region}

theorem Within.refl (R : Region) : R.Within R := ⟨subset_rfl, subset_rfl, subset_rfl⟩

theorem Within.trans (first : R.Within S) (second : S.Within T) : R.Within T :=
  ⟨first.links.trans second.links, first.streams.trans second.streams,
    first.names.trans second.names⟩

/-- The region with one more stream. -/
def insert (id : StreamId) (R : Region) : Region := { R with streams := R.streams ∪ {id} }

/-- The region with all that may be added to a host. -/
def extend (h : Host) (R : Region) : Region where
  links := R.links ∪ {id | h.links.size ≤ id.index}
  streams := R.streams ∪ {id | h.streams.size ≤ id.index}
  names := R.names

theorem within_insert (id : StreamId) (R : Region) : R.Within (R.insert id) :=
  ⟨subset_rfl, Set.subset_union_left, subset_rfl⟩

theorem within_extend (h : Host) (R : Region) : R.Within (R.extend h) :=
  ⟨Set.subset_union_left, Set.subset_union_left, subset_rfl⟩

end Region

/-! ### What mentions nothing beyond a region -/

/-- A named entry is smaller than the list that it is in. -/
theorem sizeOf_snd_lt_of_mem {α : Type} [SizeOf α] {m : String × α} {ms : List (String × α)}
    (mem : m ∈ ms) : sizeOf m.2 < sizeOf ms := by
  have := List.sizeOf_lt_of_mem mem
  obtain ⟨name, a⟩ := m
  simp only [Prod.mk.sizeOf_spec] at this ⊢
  omega

/-- All links and streams in the value belong to the region. -/
def Value.In (R : Region) : Value → Prop
  | .array items => ∀ v ∈ items, v.In R
  | .object members => ∀ m ∈ members, m.2.In R
  | .record _ values => ∀ v ∈ values, v.In R
  | .link id => id ∈ R.links
  | .stream id => id ∈ R.streams
  | _ => True
termination_by v => sizeOf v
decreasing_by
  · have := List.sizeOf_lt_of_mem ‹_ ∈ items›
    simp only [Value.array.sizeOf_spec]
    omega
  · have := sizeOf_snd_lt_of_mem ‹_ ∈ members›
    simp only [Value.object.sizeOf_spec]
    omega
  · have := List.sizeOf_lt_of_mem ‹_ ∈ values›
    simp only [Value.record.sizeOf_spec]
    omega

mutual

/-- All that the blueprint calls by identity or by name belongs to the region. -/
def Blueprint.In (R : Region) : Blueprint → Prop
  | .value v => v.In R
  | .array items => ∀ b ∈ items, b.In R
  | .object members => ∀ m ∈ members, m.2.In R
  | .record _ values => ∀ b ∈ values, b.In R
  | .named name => name ∈ R.names
  | .link _ plan => plan.In R
  | .stream _ plan => plan.In R
termination_by b => sizeOf b
decreasing_by
  · decreasing_tactic
  · have := sizeOf_snd_lt_of_mem ‹_ ∈ members›
    simp only [Blueprint.object.sizeOf_spec]
    omega
  all_goals decreasing_tactic

/-- The plan stays within the region. -/
def LinkPlan.In (R : Region) : LinkPlan → Prop
  | .target b => b.In R
  | .steps first later => first.In R ∧ ∀ step ∈ later, step.In R
termination_by plan => sizeOf plan

/-- The plan stays within the region. -/
def StepPlan.In (R : Region) : StepPlan → Prop
  | .make b => b.In R
  | .failure _ => True
termination_by plan => sizeOf plan

/-- The plan stays within the region. -/
def StreamPlan.In (R : Region) : StreamPlan → Prop
  | .plain elements => ∀ b ∈ elements, b.In R
  | .counting .. => True
  | .items items => ∀ item ∈ items, item.In R
termination_by plan => sizeOf plan

/-- The plan stays within the region. -/
def ItemPlan.In (R : Region) : ItemPlan → Prop
  | .element b => b.In R
  | .failure _ => True
  | .pull name => name ∈ R.names
termination_by plan => sizeOf plan

end

/-- The resolution stays within the region. -/
def ResolverStep.In (R : Region) : ResolverStep → Prop
  | .give v => v.In R
  | .make b => b.In R
  | .failure _ => True

/-- The resolutions stay within the region. -/
structure Resolver.In (R : Region) (r : Resolver) : Prop where
  current : r.current.In R
  later : ∀ step ∈ r.later, step.In R

/-- The item stays within the region. -/
def Item.In (R : Region) : Item → Prop
  | .element v => v.In R
  | .failure _ => True
  | .pull name => name ∈ R.names

/-- All that a source has to give stays within the region. -/
def Supply.In (R : Region) : Supply → Prop
  | .listed items => ∀ item ∈ items, item.In R
  | .endless element => ∀ position, (element position).In R

/-- The transformation does not lead out of the region, nor out of a larger one. -/
def Transform.In (R : Region) : Transform → Prop
  | .filter _ => True
  | .selector _ => True
  | .function f => ∀ S : Region, R.Within S → ∀ v w, v.In S → f v = .ok w → w.In S

/-- The elements come from within the region. -/
def Cursor.In (R : Region) : Cursor → Prop
  | .source s => s.supply.In R
  | .mapped feed t => feed ∈ R.streams ∧ t.In R
  | .sliced feed .. => feed ∈ R.streams

section Mono

variable {R S : Region}

theorem Value.In.mono (sub : R.Within S) {v : Value} (h : v.In R) : v.In S := by
  induction v using Value.In.induct with
  | case1 items ih =>
    rw [Value.In] at h ⊢
    exact fun v mem => ih v mem (h v mem)
  | case2 members ih =>
    rw [Value.In] at h ⊢
    exact fun m mem => ih m mem (h m mem)
  | case3 type values ih =>
    rw [Value.In] at h ⊢
    exact fun v mem => ih v mem (h v mem)
  | case4 id =>
    rw [Value.In] at h ⊢
    exact sub.links h
  | case5 id =>
    rw [Value.In] at h ⊢
    exact sub.streams h
  | case6 v =>
    cases v <;> simp_all [Value.In]

mutual

theorem Blueprint.In.mono (sub : R.Within S) : ∀ {b : Blueprint}, b.In R → b.In S
  | .value v, h => by
    rw [Blueprint.In] at h ⊢
    exact h.mono sub
  | .array items, h => by
    rw [Blueprint.In] at h ⊢
    exact fun b mem => (h b mem).mono sub
  | .object members, h => by
    rw [Blueprint.In] at h ⊢
    intro m mem
    have := sizeOf_snd_lt_of_mem mem
    exact (h m mem).mono sub
  | .record type values, h => by
    rw [Blueprint.In] at h ⊢
    exact fun b mem => (h b mem).mono sub
  | .named name, h => by
    rw [Blueprint.In] at h ⊢
    exact sub.names h
  | .link label plan, h => by
    rw [Blueprint.In] at h ⊢
    exact h.mono sub
  | .stream label plan, h => by
    rw [Blueprint.In] at h ⊢
    exact h.mono sub
termination_by b => sizeOf b

theorem LinkPlan.In.mono (sub : R.Within S) : ∀ {plan : LinkPlan}, plan.In R → plan.In S
  | .target b, h => by
    rw [LinkPlan.In] at h ⊢
    exact h.mono sub
  | .steps first later, h => by
    rw [LinkPlan.In] at h ⊢
    exact ⟨h.1.mono sub, fun step mem => (h.2 step mem).mono sub⟩
termination_by plan => sizeOf plan

theorem StepPlan.In.mono (sub : R.Within S) : ∀ {plan : StepPlan}, plan.In R → plan.In S
  | .make b, h => by
    rw [StepPlan.In] at h ⊢
    exact h.mono sub
  | .failure _, _ => by simp only [StepPlan.In]
termination_by plan => sizeOf plan

theorem StreamPlan.In.mono (sub : R.Within S) : ∀ {plan : StreamPlan}, plan.In R → plan.In S
  | .plain elements, h => by
    rw [StreamPlan.In] at h ⊢
    exact fun b mem => (h b mem).mono sub
  | .counting .., _ => by simp only [StreamPlan.In]
  | .items items, h => by
    rw [StreamPlan.In] at h ⊢
    exact fun item mem => (h item mem).mono sub
termination_by plan => sizeOf plan

theorem ItemPlan.In.mono (sub : R.Within S) : ∀ {plan : ItemPlan}, plan.In R → plan.In S
  | .element b, h => by
    rw [ItemPlan.In] at h ⊢
    exact h.mono sub
  | .failure _, _ => by simp only [ItemPlan.In]
  | .pull name, h => by
    rw [ItemPlan.In] at h ⊢
    exact sub.names h
termination_by plan => sizeOf plan

end

theorem ResolverStep.In.mono (sub : R.Within S) {step : ResolverStep} (h : step.In R) :
    step.In S := by
  cases step with
  | give v => exact Value.In.mono sub h
  | make b => exact Blueprint.In.mono sub h
  | failure reason => trivial

theorem Resolver.In.mono (sub : R.Within S) {r : Resolver} (h : r.In R) : r.In S :=
  ⟨h.current.mono sub, fun step mem => (h.later step mem).mono sub⟩

theorem Item.In.mono (sub : R.Within S) {item : Item} (h : item.In R) : item.In S := by
  cases item with
  | element v => exact Value.In.mono sub h
  | failure e => trivial
  | pull name => exact sub.names h

theorem Supply.In.mono (sub : R.Within S) {supply : Supply} (h : supply.In R) : supply.In S := by
  cases supply with
  | listed items => exact fun item mem => (h item mem).mono sub
  | endless element => exact fun position => (h position).mono sub

theorem Transform.In.mono (sub : R.Within S) {t : Transform} (h : t.In R) : t.In S := by
  cases t with
  | function f => exact fun T sub' => h T (sub.trans sub')
  | _ => trivial

theorem Cursor.In.mono (sub : R.Within S) {c : Cursor} (h : c.In R) : c.In S := by
  cases c with
  | source s => exact Supply.In.mono sub h
  | mapped feed t => exact ⟨sub.streams h.1, h.2.mono sub⟩
  | sliced feed => exact sub.streams h

end Mono

/-! ### Parts -/

section Parts

variable {R : Region}

theorem Value.in_null : Value.null.In R := by simp [Value.In]

theorem Value.in_ofMembers {given : List (String × Value)} (h : ∀ m ∈ given, m.2.In R) :
    (Value.ofMembers given).In R := by
  rw [Value.ofMembers, Value.In]
  exact fun m mem => h m (mem_of_mem_collectMembers mem)

theorem Value.in_ofFields {type : RecordType} {values : List Value} (h : ∀ v ∈ values, v.In R) :
    (Value.ofFields type values).In R := by
  rw [Value.ofFields, Value.In]
  intro v mem
  rcases List.mem_append.mp mem with mem | mem
  · exact h v (List.mem_of_mem_take mem)
  · rw [List.eq_of_mem_replicate mem]
    exact Value.in_null

/-- What a name finds in a value of the region is in the region. -/
theorem Value.In.member? {v w : Value} {name : String} (h : v.In R)
    (found : v.member? name = some w) : w.In R := by
  cases v with
  | object members =>
    rw [Value.In] at h
    exact h _ (mem_of_lookup found)
  | record type values =>
    rw [Value.In] at h
    obtain ⟨i, _, at_i⟩ := Option.bind_eq_some_iff.mp found
    exact h _ (List.mem_of_getElem? at_i)
  | _ => cases found

theorem in_countingElement (first : Int) (key : Option String) (position : Nat) :
    (countingElement first key position).In R := by
  cases key <;> simp [countingElement, Value.In]

/-- What a resolution does stays where its plan does. -/
theorem StepPlan.In.toStep {plan : StepPlan} (h : plan.In R) : plan.toStep.In R := by
  cases plan with
  | make b => rwa [StepPlan.In] at h
  | failure reason => trivial

theorem in_stepsOf {plans : List StepPlan} (h : ∀ plan ∈ plans, plan.In R) :
    ∀ step ∈ stepsOf plans, step.In R := by
  induction plans with
  | nil => exact nofun
  | cons plan plans ih =>
    rw [List.forall_mem_cons] at h
    rw [stepsOf, List.forall_mem_cons]
    exact ⟨h.1.toStep, ih h.2⟩

theorem Resolver.In.advance {r : Resolver} (h : r.In R) : r.advance.In R := by
  obtain ⟨label, current, later⟩ := r
  cases later with
  | nil => exact h
  | cons step later =>
    obtain ⟨-, all⟩ := h
    rw [List.forall_mem_cons] at all
    exact ⟨all.1, all.2⟩

/-- The next item and what is left after it stay within the region. -/
theorem Supply.In.take? {s s' : Source} {item : Item} (h : s.supply.In R)
    (taken : s.take? = some (item, s')) : item.In R ∧ s'.supply.In R := by
  obtain ⟨label, shown, supply, position⟩ := s
  cases supply with
  | listed items =>
    cases items with
    | nil => cases taken
    | cons item items =>
      cases taken
      exact List.forall_mem_cons.mp h
  | endless element =>
    cases taken
    exact ⟨h position, h⟩

end Parts

/-! ### Hosts -/

/-- The stream that an event is a pull from, if it is one. -/
def Event.stream? : Event → Option StreamId
  | .resolution .. => none
  | .pull id _ _ => some id
  | .exhausted id => some id

namespace Host

/-- How often a source was pulled, the pulls that found it empty included. -/
def pulls (id : StreamId) (h : Host) : Nat := h.log.countP fun event => event.stream? = some id

/-- All that the region leads to is in the region, and the streams of the region exist. -/
structure Encloses (R : Region) (h : Host) : Prop where
  links : ∀ id ∈ R.links, ∃ r, h.links[id.index]? = some r ∧ r.In R
  streams : ∀ id ∈ R.streams, ∃ cell, h.streams[id.index]? = some cell ∧ cell.cursor.In R
  names : ∀ name ∈ R.names, ∀ v, h.names.lookup name = some v → v.In R

/-- All that the region leads to is in the region, and so is all that may be added to the host. -/
structure Sealed (R : Region) (h : Host) : Prop where
  links : ∀ id ∈ R.links, ∀ r, h.links[id.index]? = some r → r.In R
  streams : ∀ id ∈ R.streams, ∀ cell, h.streams[id.index]? = some cell → cell.cursor.In R
  names : ∀ name ∈ R.names, ∀ v, h.names.lookup name = some v → v.In R
  newLinks : ∀ id : LinkId, h.links.size ≤ id.index → id ∈ R.links
  newStreams : ∀ id : StreamId, h.streams.size ≤ id.index → id ∈ R.streams

/-- From the first host to the second, streams beside the region have not changed and were not
pulled. -/
structure Beside (R : Region) (h h' : Host) : Prop where
  streams : ∀ id ∉ R.streams, h'.streams[id.index]? = h.streams[id.index]?
  pulls : ∀ id ∉ R.streams, h'.pulls id = h.pulls id

variable {R S : Region} {h h' h'' : Host} {id : StreamId}

/-- The streams of the region are there. -/
theorem Encloses.lt_size (encloses : h.Encloses R) (mem : id ∈ R.streams) :
    id.index < h.streams.size := by
  obtain ⟨cell, found, -⟩ := encloses.streams id mem
  exact (Array.getElem?_eq_some_iff.mp found).1

/-- What may be added to a host seals a region that leads nowhere else. -/
theorem Encloses.sealed (encloses : h.Encloses R) : h.Sealed (R.extend h) where
  links := by
    rintro id (mem | new) r found
    · obtain ⟨r', found', inside⟩ := encloses.links id mem
      cases found.symm.trans found'
      exact inside.mono (R.within_extend h)
    · exact absurd (Array.getElem?_eq_some_iff.mp found).1 (Nat.not_lt_of_le new)
  streams := by
    rintro id (mem | new) cell found
    · obtain ⟨cell', found', inside⟩ := encloses.streams id mem
      cases found.symm.trans found'
      exact inside.mono (R.within_extend h)
    · exact absurd (Array.getElem?_eq_some_iff.mp found).1 (Nat.not_lt_of_le new)
  names name mem v found := (encloses.names name mem v found).mono (R.within_extend h)
  newLinks _ new := .inr new
  newStreams _ new := .inr new

theorem Beside.refl (R : Region) (h : Host) : Beside R h h := ⟨fun _ _ => rfl, fun _ _ => rfl⟩

theorem Beside.trans (first : Beside R h h') (second : Beside R h' h'') : Beside R h h'' where
  streams id outside := (second.streams id outside).trans (first.streams id outside)
  pulls id outside := (second.pulls id outside).trans (first.pulls id outside)

theorem Beside.mono (beside : Beside R h h') (sub : R.Within S) : Beside S h h' where
  streams id outside := beside.streams id fun mem => outside (sub.streams mem)
  pulls id outside := beside.pulls id fun mem => outside (sub.streams mem)

/-! ### Single changes -/

theorem pulls_record (id : StreamId) (event : Event) (h : Host) :
    (h.record event).pulls id = h.pulls id + if event.stream? = some id then 1 else 0 := by
  simp only [pulls, record, Array.countP_push, decide_eq_true_eq]

theorem pulls_record_self {event : Event} (same : event.stream? = some id) (h : Host) :
    (h.record event).pulls id = h.pulls id + 1 := by
  rw [pulls_record, if_pos same]

/-- Streams beside a sealed region were there before. -/
theorem Sealed.lt_size (sealed : h.Sealed R) (outside : id ∉ R.streams) :
    id.index < h.streams.size :=
  Nat.lt_of_not_le fun new => outside (sealed.newStreams id new)

/-- A stream of the region may change as long as its elements come from within the region; what
happens to the others does not matter. -/
theorem Sealed.modifyStream {f : StreamCell → StreamCell} (sealed : h.Sealed R)
    (keeps : id ∈ R.streams → ∀ cell : StreamCell, cell.cursor.In R → (f cell).cursor.In R) :
    (h.modifyStream id f).Sealed R where
  links := sealed.links
  streams id' mem cell found := by
    by_cases same : id' = id
    · subst same
      cases before : h.streams[id'.index]? with
      | none => simp [Host.modifyStream, Array.getElem?_modify, before] at found
      | some cell' =>
        rw [getElem?_modifyStream before] at found
        cases found
        exact keeps mem cell' (sealed.streams id' mem cell' before)
    · rw [getElem?_modifyStream_of_ne same] at found
      exact sealed.streams id' mem cell found
  names := sealed.names
  newLinks := sealed.newLinks
  newStreams id' new := sealed.newStreams id' (by simpa [Host.modifyStream] using new)

theorem beside_modifyStream {f : StreamCell → StreamCell} (inside : id ∈ R.streams) :
    Beside R h (h.modifyStream id f) where
  streams _ outside := getElem?_modifyStream_of_ne fun same => outside (same ▸ inside)
  pulls _ _ := rfl

theorem Sealed.setLink {id : LinkId} {r : Resolver} (sealed : h.Sealed R) (inside : r.In R) :
    Sealed R { h with links := h.links.set! id.index r } where
  links id' mem r' found := by
    simp only [Array.set!_eq_setIfInBounds, Array.getElem?_setIfInBounds] at found
    split at found
    · split at found
      · cases found
        exact inside
      · cases found
    · exact sealed.links id' mem r' found
  streams := sealed.streams
  names := sealed.names
  newLinks id' new := sealed.newLinks id' (by simpa using new)
  newStreams := sealed.newStreams

/-- Two streams can be changed in either order. -/
theorem modifyStream_comm {id' : StreamId} {f g : StreamCell → StreamCell} (other : id ≠ id') :
    (h.modifyStream id f).modifyStream id' g = (h.modifyStream id' g).modifyStream id f := by
  have streams : (h.streams.modify id.index f).modify id'.index g =
      (h.streams.modify id'.index g).modify id.index f := by
    apply Array.ext_getElem?
    intro i
    simp only [Array.getElem?_modify]
    by_cases first : id.index = i
    · have second : id'.index ≠ i := fun second =>
        other (congrArg StreamId.mk (first.trans second.symm))
      simp [first, second]
    · simp [first]
  simp only [Host.modifyStream, streams]

theorem Sealed.addStream {c : Cursor} (sealed : h.Sealed R) (inside : c.In R) :
    (h.addStream c).2.Sealed R where
  links := sealed.links
  streams id mem cell found := by
    simp only [Host.addStream, Array.getElem?_push] at found
    split at found
    · cases found
      exact inside
    · exact sealed.streams id mem cell found
  names := sealed.names
  newLinks := sealed.newLinks
  newStreams id new := by
    simp only [Host.addStream, Array.size_push] at new
    exact sealed.newStreams id (by omega)

theorem beside_addStream (sealed : h.Sealed R) (c : Cursor) : Beside R h (h.addStream c).2 where
  streams id outside := by
    have := sealed.lt_size outside
    simp only [Host.addStream, Array.getElem?_push, if_neg (Nat.ne_of_lt this)]
  pulls _ _ := rfl

/-- Adding a stream and changing one that is there already can be done in either order. -/
theorem addStream_modifyStream (c : Cursor) {f : StreamCell → StreamCell}
    (below : id.index < h.streams.size) :
    (h.modifyStream id f).addStream c =
      ((h.addStream c).1, (h.addStream c).2.modifyStream id f) := by
  have streams : (h.streams.modify id.index f).push ⟨c, false⟩ =
      (h.streams.push ⟨c, false⟩).modify id.index f := by
    apply Array.ext_getElem?
    intro i
    simp only [Array.getElem?_push, Array.getElem?_modify, Array.size_modify]
    by_cases last : i = h.streams.size
    · simp [last, Nat.ne_of_lt below]
    · simp [last]
  simp only [Host.addStream, Host.modifyStream, Array.size_modify, streams]

theorem Sealed.addLink {r : Resolver} (sealed : h.Sealed R) (inside : r.In R) :
    (h.addLink r).2.Sealed R where
  links id mem r' found := by
    simp only [Host.addLink, Array.getElem?_push] at found
    split at found
    · cases found
      exact inside
    · exact sealed.links id mem r' found
  streams := sealed.streams
  names := sealed.names
  newLinks id new := by
    simp only [Host.addLink, Array.size_push] at new
    exact sealed.newLinks id (by omega)
  newStreams := sealed.newStreams

end Host

end TreeQuery
