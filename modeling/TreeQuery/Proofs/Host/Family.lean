import TreeQuery.Proofs.Host.Draining

/-!
# Families of streams

In a family every stream is fed by a list of items, or by another stream of the family, whose
elements go through a function or a slice. The items may hand on the elements of any stream that
has a name. So streams may feed each other in any way, themselves included.

Pulls move cursors forward, and a stream that is busy all the while is not moved at all. Two
numbers bound what can happen: how many streams are idle, which falls with every pull inside of
another one, and how many items the sources have left.

## Main definitions

* `Cursor.Onward` — a cursor and where it may be moved to
* `Host.Family` — the streams are fed by lists or by each other
* `Host.Onward` — the hosts before and after some pulls
* `Host.idle` — how many streams are not busy

## Main statements

* `Host.Onward.trans` — pulls one after the other
* `Host.Onward.family` — a family stays one
* `Host.Onward.stock_le` — there are no more items left than before
-/

namespace TreeQuery

/-- What feeds the cursor is a list of items, or one of so many streams by way of a function or a
slice. -/
def Cursor.Fed (streams : Nat) : Cursor → Prop
  | .source s => ∃ items, s.supply = .listed items
  | .mapped feed t => feed.index < streams ∧ ∃ f, t = .function f
  | .sliced feed .. => feed.index < streams

/-- A cursor and where it may be moved to: a source goes on in its list, a slice to later
positions. -/
inductive Cursor.Onward : Cursor → Cursor → Prop
  | refl (c : Cursor) : Onward c c
  | source (label : String) (shown : Bool) (taken items : List Item) (position : Nat) :
      Onward (.source ⟨label, shown, .listed (taken ++ items), position⟩)
        (.source ⟨label, shown, .listed items, position + taken.length⟩)
  | sliced (feed : StreamId) (slice : Slice) (budget budget' : Option Nat)
      {position position' : Nat} (le : position ≤ position') :
      Onward (.sliced feed slice budget position) (.sliced feed slice budget' position')

namespace Cursor.Onward

variable {c c' c'' : Cursor}

theorem trans (first : Onward c c') (second : Onward c' c'') : Onward c c'' := by
  cases first with
  | refl => exact second
  | source label shown taken items position =>
    cases second with
    | refl => exact .source label shown taken items position
    | source _ _ taken' items' _ =>
      rw [← List.append_assoc, Nat.add_assoc, ← List.length_append]
      exact .source label shown (taken ++ taken') items' position
  | sliced feed slice budget _ le =>
    cases second with
    | refl => exact .sliced feed slice _ _ le
    | sliced _ _ _ _ le' => exact .sliced feed slice _ _ (Nat.le_trans le le')

theorem fed {n : Nat} (onward : Onward c c') (fed : c.Fed n) : c'.Fed n := by
  cases onward with
  | refl => exact fed
  | source => exact ⟨_, rfl⟩
  | sliced => exact fed

theorem left_le {busy busy' : Bool} (onward : Onward c c') :
    StreamCell.left ⟨c', busy'⟩ ≤ StreamCell.left ⟨c, busy⟩ := by
  cases onward with
  | refl => exact Nat.le_refl _
  | source => simp [StreamCell.left]
  | sliced => exact Nat.le_refl _

end Cursor.Onward

namespace Host

variable {h h' h'' : Host} {id : StreamId} {own own' : Set StreamId} {c : Cursor} {busy : Bool}

/-- The streams are fed by lists or by each other. -/
structure Family (h : Host) : Prop where
  fed : ∀ (id : StreamId) cell, h.streams[id.index]? = some cell → cell.cursor.Fed h.streams.size
  named : ∀ name (id : StreamId), h.names.lookup name = some (.stream id) →
    id.index < h.streams.size

/-- No stream is busy. -/
def Resting (h : Host) : Prop :=
  ∀ (id : StreamId) cell, h.streams[id.index]? = some cell → cell.busy = false

/-- From the first host to the second, cursors were moved forward, those of busy streams only if
they are among `own`. The same streams are busy. -/
structure Onward (own : Set StreamId) (h h' : Host) : Prop where
  size : h'.streams.size = h.streams.size
  names : h'.names = h.names
  cells : ∀ (id : StreamId) cell, h.streams[id.index]? = some cell →
    ∃ c, h'.streams[id.index]? = some ⟨c, cell.busy⟩ ∧ cell.cursor.Onward c ∧
      (cell.busy = true → id ∉ own → c = cell.cursor)

/-- How many streams are not busy. -/
def idle (h : Host) : Nat :=
  (h.streams.toList.map fun cell => if cell.busy then 0 else 1).sum

theorem Onward.refl (own : Set StreamId) (h : Host) : Onward own h h :=
  ⟨rfl, rfl, fun _ cell found => ⟨cell.cursor, found, .refl _, fun _ _ => rfl⟩⟩

theorem Onward.trans (first : Onward own h h') (second : Onward own h' h'') :
    Onward own h h'' where
  size := second.size.trans first.size
  names := second.names.trans first.names
  cells id cell found := by
    obtain ⟨c, found', moved, still⟩ := first.cells id cell found
    obtain ⟨c', found'', moved', still'⟩ := second.cells id _ found'
    exact ⟨c', found'', moved.trans moved',
      fun busy outside => (still' busy outside).trans (still busy outside)⟩

theorem Onward.mono (onward : Onward own h h') (sub : own ⊆ own') : Onward own' h h' :=
  ⟨onward.size, onward.names, fun id cell found => by
    obtain ⟨c, found', moved, still⟩ := onward.cells id cell found
    exact ⟨c, found', moved, fun busy outside => still busy fun mem => outside (sub mem)⟩⟩

/-- What a stream was before. -/
theorem Onward.exists_before {cell' : StreamCell} (onward : Onward own h h')
    (found' : h'.streams[id.index]? = some cell') :
    ∃ cell, h.streams[id.index]? = some cell ∧ cell'.busy = cell.busy ∧
      cell.cursor.Onward cell'.cursor := by
  have inside : id.index < h.streams.size :=
    onward.size ▸ (Array.getElem?_eq_some_iff.mp found').1
  have found := Array.getElem?_eq_getElem inside
  obtain ⟨c, moved, onward, -⟩ := onward.cells id _ found
  cases found'.symm.trans moved
  exact ⟨_, found, rfl, onward⟩

/-- A family stays one. -/
theorem Onward.family (onward : Onward own h h') (family : h.Family) : h'.Family where
  fed id cell found' := by
    obtain ⟨cell', found, -, moved⟩ := onward.exists_before found'
    rw [onward.size]
    exact moved.fed (family.fed id cell' found)
  named name id found := by
    rw [onward.names] at found
    rw [onward.size]
    exact family.named name id found

theorem Resting.onward (rests : h.Resting) (onward : Onward own h h') : h'.Resting := by
  intro id cell found'
  obtain ⟨cell', found, same, -⟩ := onward.exists_before found'
  rw [same, rests id cell' found]

/-- The entries of the two hosts, side by side. -/
theorem Onward.forall₂ (onward : Onward own h h') :
    List.Forall₂ (fun cell cell' => cell'.busy = cell.busy ∧ cell'.left ≤ cell.left)
      h.streams.toList h'.streams.toList := by
  refine List.forall₂_iff_get.mpr ⟨by simp [onward.size], fun i bound bound' => ?_⟩
  have found : h.streams[i]? = some h.streams.toList[i] := by
    rw [← Array.getElem?_toList]
    exact List.getElem?_eq_getElem bound
  obtain ⟨c, found', moved, -⟩ := onward.cells ⟨i⟩ _ found
  rw [← Array.getElem?_toList] at found'
  obtain ⟨_, same⟩ := List.getElem?_eq_some_iff.mp found'
  simp only [List.get_eq_getElem]
  rw [same]
  exact ⟨rfl, moved.left_le⟩

/-- There are no more items left than before. -/
theorem Onward.stock_le (onward : Onward own h h') : h'.stock ≤ h.stock := by
  refine List.Forall₂.sum_le_sum (List.forall₂_map_left_iff.mpr (List.forall₂_map_right_iff.mpr ?_))
  exact onward.forall₂.flip.imp fun _ _ both => both.2

/-- As many streams are idle as before. -/
theorem Onward.idle_eq (onward : Onward own h h') : h'.idle = h.idle := by
  have busy : h'.streams.toList.map StreamCell.busy = h.streams.toList.map StreamCell.busy := by
    refine List.forall₂_eq_eq_eq ▸ List.forall₂_map_left_iff.mpr
      (List.forall₂_map_right_iff.mpr ?_)
    exact onward.forall₂.flip.imp fun _ _ both => both.1
  have counts (g : Host) : g.idle = ((g.streams.toList.map StreamCell.busy).map
      fun busy => if busy then 0 else 1).sum := by
    rw [List.map_map]
    rfl
  rw [counts, counts, busy]

/-! ### Single changes -/

@[simp] theorem size_setCursor (id : StreamId) (c : Cursor) (h : Host) :
    (h.setCursor id c).streams.size = h.streams.size := by
  simp [setCursor, modifyStream]

@[simp] theorem size_setBusy (id : StreamId) (busy : Bool) (h : Host) :
    (h.setBusy id busy).streams.size = h.streams.size := by
  simp [setBusy, modifyStream]

theorem onward_record (own : Set StreamId) (event : Event) : Onward own h (h.record event) :=
  ⟨rfl, rfl, (Onward.refl own h).cells⟩

/-- The cursor of a stream of `own` is moved forward. -/
theorem onward_setCursor {c' : Cursor} (found : h.streams[id.index]? = some ⟨c, busy⟩)
    (moved : c.Onward c') (mem : id ∈ own) : Onward own h (h.setCursor id c') where
  size := size_setCursor id c' h
  names := rfl
  cells id' cell found' := by
    by_cases same : id' = id
    · subst same
      cases found.symm.trans found'
      exact ⟨c', getElem?_modifyStream found, moved, fun _ outside => absurd mem outside⟩
    · refine ⟨cell.cursor, ?_, .refl _, fun _ _ => rfl⟩
      rw [setCursor, getElem?_modifyStream_of_ne same, found']

/-- A stream that gets busy is one idle stream less. -/
theorem idle_setBusy (found : h.streams[id.index]? = some ⟨c, false⟩) :
    (h.setBusy id true).idle + 1 = h.idle := by
  have total := sum_modify (Array.getElem?_toList ▸ found)
    (fun cell => { cell with busy := true }) fun cell => if cell.busy then 0 else 1
  simp only [idle, setBusy, modifyStream, Array.toList_modify]
  simpa using total

/-- A change to one entry that makes no difference to what is looked at. -/
theorem map_modify_of_eq {α β : Type} {f : α → α} {g : α → β} (same : ∀ a, g (f a) = g a)
    (l : List α) (i : Nat) : (l.modify i f).map g = l.map g := by
  induction l generalizing i with
  | nil => simp
  | cons a l ih => cases i <;> simp [same, ih]

theorem stock_setBusy (id : StreamId) (busy : Bool) (h : Host) :
    (h.setBusy id busy).stock = h.stock := by
  have same (cell : StreamCell) : StreamCell.left { cell with busy } = cell.left := rfl
  simp only [stock, setBusy, modifyStream, Array.toList_modify, map_modify_of_eq same]

/-- A stream that gets busy makes no difference to who feeds it. -/
theorem Family.setBusy (family : h.Family) (id : StreamId) (busy : Bool) :
    (h.setBusy id busy).Family where
  fed id' cell found := by
    rw [size_setBusy]
    simp only [Host.setBusy, modifyStream, Array.getElem?_modify] at found
    split at found
    · obtain ⟨cell', found', rfl⟩ := Option.map_eq_some_iff.mp found
      exact family.fed id' cell' found'
    · exact family.fed id' cell found
  named name id' found := by
    rw [size_setBusy]
    exact family.named name id' found

/-- A stream is moved while it is busy, and busy no longer afterwards. -/
theorem Onward.of_setBusy {c : Cursor} (found : h.streams[id.index]? = some ⟨c, false⟩)
    (onward : Onward {id} (h.setBusy id true) h') : Onward ∅ h (h'.setBusy id false) where
  size := by simpa using onward.size
  names := onward.names
  cells id' cell found' := by
    by_cases same : id' = id
    · subst same
      cases found.symm.trans found'
      obtain ⟨c', moved, onward, -⟩ := onward.cells id' _ (getElem?_modifyStream found)
      exact ⟨c', getElem?_modifyStream moved, onward, nofun⟩
    · have apart : (h.setBusy id true).streams[id'.index]? = some cell :=
        (getElem?_modifyStream_of_ne same).trans found'
      obtain ⟨c', moved, onward, still⟩ := onward.cells id' cell apart
      refine ⟨c', ?_, onward, fun busy _ => still busy same⟩
      exact (getElem?_modifyStream_of_ne same).trans moved

end Host

end TreeQuery
