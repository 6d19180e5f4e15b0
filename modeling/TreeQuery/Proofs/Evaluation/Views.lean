import TreeQuery.Proofs.Evaluation.Rules
import TreeQuery.Proofs.Host.Footprint

/-!
# Views of one source

Several views may share one source: each is a clone of it with layers on top, which work on the
elements or cut a stretch out of them. A pull through a view takes elements from the source until
its layers let one pass, and no other view comes upon these. A slice counts the elements that it has
taken itself, so what the others take makes no difference to it.

## Main definitions

* `Source.Gives` — what a source gives one after the other
* `Layer`, `Evaluation.openView` — views of a source
* `Evaluation.Makes` — what layers make of what was taken
* `Evaluation.Serves` — the streams of a view, with what it took and what it gave so far
* `Evaluation.Spares` — work on elements that has nothing to do with the streams of the views

## Main statements

* `Evaluation.fetches_all` — a pull through a view
* `Evaluation.answers_all` — it comes to an end if the work on elements does
-/

namespace TreeQuery

/-- What is given in the course of time: an element, or a failure in its place. -/
abbrev Given : Type := Except EvalError Value

/-- What a pull gives, unless it finds the end. -/
def given? : Except EvalError (Option Value) → Option Given
  | .ok none => none
  | .ok (some v) => some (.ok v)
  | .error e => some (.error e)

@[simp] theorem given?_end : given? (.ok none) = none := rfl

@[simp] theorem given?_element (v : Value) : given? (.ok (some v)) = some (.ok v) := rfl

@[simp] theorem given?_failure (e : EvalError) : given? (.error e) = some (.error e) := rfl

@[simp] theorem given?_map_some (x : Given) : given? (x.map some) = some x := by
  cases x <;> rfl

/-! ### Sources -/

/-- The source gives these elements and failures, one for each item that is taken. -/
inductive Source.Gives : Source → List Given → Source → Prop
  | nil (s : Source) : Gives s [] s
  | cons {s s₁ s' : Source} {item : Item} {x : Given} {xs : List Given}
      (takes : s.take? = some (item, s₁)) (given : item.given? = some x) (rest : Gives s₁ xs s') :
      Gives s (x :: xs) s'

theorem Source.Gives.append {s s₁ s' : Source} {xs ys : List Given} (first : s.Gives xs s₁)
    (second : s₁.Gives ys s') : s.Gives (xs ++ ys) s' := by
  induction first with
  | nil => exact second
  | cons takes given _ ih => exact .cons takes given (ih second)

/-- All items give an element or a failure of their own, and the elements are as stated. -/
def Supply.Of (P : Value → Prop) : Supply → Prop
  | .listed items => ∀ item ∈ items, ∃ x, item.given? = some x ∧ ∀ v, x = .ok v → P v
  | .endless element => ∀ i, P (element i)

theorem Supply.Of.take? {P : Value → Prop} {s s' : Source} {item : Item} (of : s.supply.Of P)
    (takes : s.take? = some (item, s')) :
    (∃ x, item.given? = some x ∧ ∀ v, x = .ok v → P v) ∧ s'.supply.Of P := by
  obtain ⟨label, shown, supply, position⟩ := s
  cases supply with
  | listed items =>
    cases items with
    | nil => cases takes
    | cons first rest =>
      cases takes
      exact List.forall_mem_cons.mp of
  | endless element =>
    cases takes
    exact ⟨⟨.ok _, rfl, by rintro _ ⟨⟩; exact of position⟩, of⟩

/-! ### Layers -/

/-- What may be put on top of a stream. -/
inductive Layer where
  /-- The elements are worked on. -/
  | map (t : Transform)
  /-- The elements at the positions of a slice are left. -/
  | slice (s : Slice)

/-- The elements at the positions of a slice, and the failures wherever they are. -/
def Slice.keep (s : Slice) (xs : List Given) : List Given :=
  (xs.zipIdx.filter fun (x, i) => !x.isOk || s.contains i).map Prod.fst

namespace Slice

variable {s : Slice} {xs : List Given}

theorem keep_append (x : Given) :
    s.keep (xs ++ [x]) =
      s.keep xs ++ if !x.isOk || s.contains xs.length then [x] else [] := by
  simp only [keep, List.zipIdx_append, List.filter_append, List.map_append]
  congr 1
  simp only [List.zipIdx_singleton, List.filter_cons, List.filter_nil, Nat.zero_add]
  split <;> rfl

theorem keep_append_error (e : EvalError) :
    s.keep (xs ++ [.error e]) = s.keep xs ++ [.error e] :=
  keep_append _

theorem keep_append_of_contains (contains : s.contains xs.length = true) (x : Given) :
    s.keep (xs ++ [x]) = s.keep xs ++ [x] := by
  rw [keep_append, contains, Bool.or_true, if_pos rfl]

theorem keep_append_of_not_contains (contains : ¬ s.contains xs.length = true) (v : Value) :
    s.keep (xs ++ [.ok v]) = s.keep xs := by
  rw [keep_append, Bool.eq_false_iff.mpr contains]
  exact List.append_nil _

theorem keep_of_all (all : s.all = true) : s.keep xs = xs := by
  induction xs using List.reverseRecOn with
  | nil => rfl
  | append_singleton xs x ih =>
    have contains : s.contains xs.length = true := by rw [Slice.contains, all, Bool.true_or]
    rw [keep_append_of_contains contains, ih]

end Slice

namespace Evaluation

open Host Run

/-- A clone of a stream with layers put on top of it, the uppermost first. -/
def openView (src : StreamId) : List Layer → Evaluation Value
  | [] => pure (.stream src)
  | .map t :: below => do
    match ← openView src below with
    | .stream id => mapStream id t
    | v => return v
  | .slice s :: below => do
    match ← openView src below with
    | .stream id => sliceStream id s
    | v => return v

/-- What becomes of an element when it is worked on, with the host as it may be at the time: `I`
holds of it. A failure is passed on. -/
def Applied (I : Host → Prop) (t : Transform) : Given → Given → Prop
  | .ok v, y => ∃ g g', I g ∧ Reaches (fun n => transform n t v) g y g'
  | .error e, y => y = .error e

/-- What a layer makes of what it takes. -/
def LayerMakes (I : Host → Prop) : Layer → List Given → List Given → Prop
  | .map t, xs, ys => List.Forall₂ (Applied I t) xs ys
  | .slice s, xs, ys => ys = s.keep xs

/-- What layers make of what the lowest one takes. -/
def Makes (I : Host → Prop) : List Layer → List Given → List Given → Prop
  | [], xs, ys => ys = xs
  | layer :: below, xs, zs => ∃ ys, Makes I below xs ys ∧ LayerMakes I layer ys zs

theorem reaches_transform_function (f : Value → Except EvalError Value) (v : Value) (h : Host) :
    Reaches (fun n => transform n (.function f) v) h (f v) h :=
  ⟨1, by simp only [transform]; cases f v <;> rfl⟩

theorem applied_function {I : Host → Prop} {f : Value → Except EvalError Value} {x y : Given}
    (applied : Applied I (.function f) x y) : y = x.bind f := by
  cases x with
  | error e => exact applied
  | ok v =>
    obtain ⟨g, _, -, reached⟩ := applied
    exact (reached.unique (reaches_transform_function f v g) (steady_transform _ v)).1

/-! ### The streams of a view -/

variable {src id feed : StreamId} {h h' g : Host} {layers below : List Layer} {own : List StreamId}
  {xs ys zs : List Given} {s : Source} {I : Host → Prop} {P : Value → Prop} {K : Set StreamId}

/-- The stream is a view of the source, and streams of its own stand in between. So far it took
`xs` from the source and gave `ys`. -/
inductive Serves (I : Host → Prop) (src : StreamId) (h : Host) :
    List Layer → List StreamId → StreamId → List Given → List Given → Prop
  | source (xs : List Given) : Serves I src h [] [] src xs xs
  | map {below : List Layer} {own : List StreamId} {feed id : StreamId} {t : Transform}
      {xs ys zs : List Given} (serves : Serves I src h below own feed xs ys)
      (found : h.streams[id.index]? = some ⟨.mapped feed t, false⟩) (apart : id ∉ src :: own)
      (made : List.Forall₂ (Applied I t) ys zs) :
      Serves I src h (.map t :: below) (id :: own) id xs zs
  | slice {below : List Layer} {own : List StreamId} {feed id : StreamId} {s : Slice}
      {budget : Option Nat} {xs ys : List Given} (serves : Serves I src h below own feed xs ys)
      (found : h.streams[id.index]? = some ⟨.sliced feed s budget ys.length, false⟩)
      (apart : id ∉ src :: own) (bounded : s.Bounded budget ys.length) :
      Serves I src h (.slice s :: below) (id :: own) id xs (s.keep ys)
  | whole {below : List Layer} {own : List StreamId} {feed : StreamId} {s : Slice}
      {xs ys : List Given} (all : s.all = true) (serves : Serves I src h below own feed xs ys) :
      Serves I src h (.slice s :: below) own feed xs ys

/-- Only streams of its own matter to a view. -/
theorem Serves.of_same (serves : Serves I src h layers own id xs ys)
    (same : ∀ m ∈ own, h'.streams[m.index]? = h.streams[m.index]?) :
    Serves I src h' layers own id xs ys := by
  induction serves with
  | source xs => exact .source xs
  | map _ found apart made ih =>
    rw [List.forall_mem_cons] at same
    exact .map (ih same.2) (same.1.trans found) apart made
  | slice _ found apart bounded ih =>
    rw [List.forall_mem_cons] at same
    exact .slice (ih same.2) (same.1.trans found) apart bounded
  | whole all _ ih => exact .whole all (ih same)

theorem Serves.source_notMem (serves : Serves I src h layers own id xs ys) : src ∉ own := by
  induction serves with
  | source => exact List.not_mem_nil
  | map _ _ apart _ ih | slice _ _ apart _ ih =>
    rw [List.mem_cons, not_or] at apart
    exact List.not_mem_cons_of_ne_of_not_mem (Ne.symm apart.1) ih
  | whole _ _ ih => exact ih

/-- What a view gave is what its layers make of what it took. -/
theorem Serves.makes (serves : Serves I src h layers own id xs ys) : Makes I layers xs ys := by
  induction serves with
  | source => rfl
  | map _ _ _ made ih => exact ⟨_, ih, made⟩
  | slice _ _ _ _ ih => exact ⟨_, ih, rfl⟩
  | whole all _ ih => exact ⟨_, ih, (Slice.keep_of_all all).symm⟩

/-- Work on elements leaves the streams of `K` alone, as long as the host and the element are as
stated, and it keeps both as stated. What becomes of the streams of `K` makes no difference. -/
structure Spares (K : Set StreamId) (I : Host → Prop) (P : Value → Prop) (layers : List Layer) :
    Prop where
  changes : ∀ {g id f}, id ∈ K → I g → I (g.modifyStream id f)
  records : ∀ {g event}, I g → I (g.record event)
  works : ∀ {t n v g result g'}, Layer.map t ∈ layers → I g → P v →
    (transform n t v).outcome g = some (result, g') →
      I g' ∧ (∀ m ∈ K, g'.streams[m.index]? = g.streams[m.index]?) ∧ ∀ w, result = .ok w → P w

theorem Spares.mono {layers' : List Layer} (spares : Spares K I P layers)
    (sub : layers' ⊆ layers) : Spares K I P layers' :=
  ⟨spares.changes, spares.records, fun mem => spares.works (sub mem)⟩

/-- The source stands ready. -/
structure Offers (I : Host → Prop) (P : Value → Prop) (src : StreamId) (s : Source) (h : Host) :
    Prop where
  inv : I h
  found : h.streams[src.index]? = some ⟨.source s, false⟩
  of : s.supply.Of P

/-- A pull has taken elements from the source and changed no stream of `K` but the source and the
view's own. -/
structure Fetched (K : Set StreamId) (I : Host → Prop) (P : Value → Prop) (src : StreamId)
    (own : List StreamId) (s : Source) (h : Host) (new : List Given) (h' : Host) : Prop where
  source : ∃ s', Offers I P src s' h' ∧ s.Gives new s'
  others : ∀ m ∈ K, m ∉ src :: own → h'.streams[m.index]? = h.streams[m.index]?

variable {own' : List StreamId} {new new' : List Given} {result : Except EvalError (Option Value)}

theorem Fetched.mono (fetched : Fetched K I P src own s h new h') (sub : own ⊆ own') :
    Fetched K I P src own' s h new h' :=
  ⟨fetched.source, fun m mem apart => fetched.others m mem fun mem' =>
    apart (List.cons_subset_cons src sub mem')⟩

/-- A view that has not got its element yet goes on. -/
theorem Fetched.trans {h₁ : Host} {s₁ : Source} (first : Fetched K I P src own s h new h₁)
    (offers : Offers I P src s₁ h₁) (second : Fetched K I P src own s₁ h₁ new' h') :
    Fetched K I P src own s h (new ++ new') h' := by
  obtain ⟨s₂, offers₁, gives⟩ := first.source
  obtain ⟨s', offers', gives'⟩ := second.source
  have same : s₂ = s₁ := by
    have := offers₁.found.symm.trans offers.found
    cases this
    rfl
  subst same
  exact ⟨⟨s', offers', gives.append gives'⟩, fun m mem apart =>
    (second.others m mem apart).trans (first.others m mem apart)⟩

/-! ### Pulling the source -/

/-- A pull from the source takes what comes next in it. -/
theorem Offers.reaches_pull (offers : Offers I P src s h) (spares : Spares K I P layers)
    (inside : src ∈ K) : ∃ result h', Reaches (fun n => pull n src) h result h' ∧
      Fetched K I P src [] s h (given? result).toList h' ∧ ∀ v, result = .ok (some v) → P v := by
  obtain ⟨inv, found, of⟩ := offers
  have busy := getElem?_modifyStream (f := fun cell => { cell with busy := true }) found
  -- Nothing but the cell of the source changes, and the invariant does not depend on it.
  have elsewhere {f : StreamCell → StreamCell} (g : Host) {m : StreamId} (apart : m ∉ [src]) :
      (g.modifyStream src f).streams[m.index]? = g.streams[m.index]? :=
    getElem?_modifyStream_of_ne (by simpa using apart)
  cases taken : s.take? with
  | none =>
    let g := (h.setBusy src true).record (.exhausted src)
    have pulls : Reaches (fun n => pull n src) h (.ok none) (g.setBusy src false) :=
      (reaches_pull_iff found).mpr ⟨g, reaches_advance_source_none taken, rfl⟩
    have inv' : I (g.setBusy src false) :=
      spares.changes inside (spares.records (spares.changes inside inv))
    have cell : (g.setBusy src false).streams[src.index]? = some ⟨.source s, false⟩ :=
      getElem?_modifyStream (h := g) busy
    exact ⟨.ok none, _, pulls, ⟨⟨s, ⟨inv', cell, of⟩, .nil s⟩, fun m _ apart =>
      (elsewhere g apart).trans (elsewhere h apart)⟩, nofun⟩
  | some out =>
    obtain ⟨item, s'⟩ := out
    obtain ⟨⟨x, given, good⟩, of'⟩ := of.take? taken
    let moved := (h.setBusy src true).setCursor src (.source s')
    let g := moved.record (.pull src s.position item.failure?)
    have pulls : Reaches (fun n => pull n src) h (x.map some) (g.setBusy src false) :=
      (reaches_pull_iff found).mpr ⟨g, reaches_advance_source_some taken given, rfl⟩
    have inv' : I (g.setBusy src false) := spares.changes inside
      (spares.records (spares.changes inside (spares.changes inside inv)))
    have cell : (g.setBusy src false).streams[src.index]? = some ⟨.source s', false⟩ :=
      getElem?_modifyStream (h := g) (getElem?_modifyStream busy)
    have gives : s.Gives (given? (x.map some)).toList s' := by
      rw [given?_map_some]
      exact .cons taken given (.nil s')
    refine ⟨x.map some, _, pulls, ⟨⟨s', ⟨inv', cell, of'⟩, gives⟩, fun m _ apart =>
      (elsewhere g apart).trans ((elsewhere (h.setBusy src true) apart).trans
        (elsewhere h apart))⟩, fun v same => good v ?_⟩
    cases x with
    | error e => cases same
    | ok w =>
      cases same
      rfl

/-! ### Pulling a view -/

/-- A pull through a view takes some elements from the source, and what the view gives then is still
what its layers make of all that it took. -/
def Fetches (K : Set StreamId) (I : Host → Prop) (P : Value → Prop) (src : StreamId)
    (layers : List Layer) (own : List StreamId) (id : StreamId) : Prop :=
  ∀ ⦃h s xs ys result h'⦄, Serves I src h layers own id xs ys → Offers I P src s h →
    Reaches (fun n => pull n id) h result h' →
      ∃ new, Fetched K I P src own s h new h' ∧
        Serves I src h' layers own id (xs ++ new) (ys ++ (given? result).toList) ∧
        ∀ v, result = .ok (some v) → P v

theorem Offers.modifyStream {f : StreamCell → StreamCell} (offers : Offers I P src s h)
    (spares : Spares K I P layers) (inside : id ∈ K) (apart : id ∉ src :: own) :
    Offers I P src s (h.modifyStream id f) := by
  have other : src ≠ id := fun same => apart (same ▸ List.mem_cons_self ..)
  exact ⟨spares.changes inside offers.inv, (getElem?_modifyStream_of_ne other).trans offers.found,
    offers.of⟩

theorem Serves.modifyStream {f : StreamCell → StreamCell}
    (serves : Serves I src h layers own feed xs ys) (apart : id ∉ src :: own) :
    Serves I src (h.modifyStream id f) layers own feed xs ys :=
  serves.of_same fun _ mem => getElem?_modifyStream_of_ne fun same =>
    apart (same ▸ List.mem_cons_of_mem _ mem)

/-- Before a pull from below, the stream on top may change. -/
theorem Fetched.before {f : StreamCell → StreamCell}
    (fetched : Fetched K I P src own s (h.modifyStream id f) new h') :
    Fetched K I P src (id :: own) s h new h' := by
  refine ⟨fetched.source, fun m mem apart => ?_⟩
  have ⟨noSource, other, notOwn⟩ : m ≠ src ∧ m ≠ id ∧ m ∉ own := by simpa using apart
  exact (fetched.others m mem (by simp [noSource, notOwn])).trans
    (getElem?_modifyStream_of_ne other)

/-- And so it may afterwards. -/
theorem Fetched.after {f : StreamCell → StreamCell}
    (fetched : Fetched K I P src (id :: own) s h new h') (spares : Spares K I P layers)
    (inside : id ∈ K) (apart : id ∉ src :: own) :
    Fetched K I P src (id :: own) s h new (h'.modifyStream id f) := by
  obtain ⟨s', offers, gives⟩ := fetched.source
  refine ⟨⟨s', offers.modifyStream spares inside apart, gives⟩, fun m mem apart' => ?_⟩
  have other : m ≠ id := fun same => apart' (by simp [same])
  exact (getElem?_modifyStream_of_ne other).trans (fetched.others m mem apart')

/-- Work on an element afterwards makes no difference. -/
theorem Fetched.of_kept (fetched : Fetched K I P src own s h new g) (source : src ∈ K) (inv : I h')
    (kept : ∀ m ∈ K, h'.streams[m.index]? = g.streams[m.index]?) :
    Fetched K I P src own s h new h' := by
  obtain ⟨s', offers, gives⟩ := fetched.source
  exact ⟨⟨s', ⟨inv, (kept src source).trans offers.found, offers.of⟩, gives⟩,
    fun m mem apart => (kept m mem).trans (fetched.others m mem apart)⟩

/-- A stream of elements that are worked on gives what becomes of them. -/
theorem fetches_map {t : Transform} (spares : Spares K I P (.map t :: below)) (source : src ∈ K)
    (sub : ∀ m ∈ own, m ∈ K)
    (fetches : ∀ own, (∀ m ∈ own, m ∈ K) → ∀ feed, Fetches K I P src below own feed) :
    Fetches K I P src (.map t :: below) own id := by
  intro h s xs zs result h' serves offers reached
  cases serves with
  | @map _ own feed _ _ _ ys _ serves found apart made =>
  have ⟨inside, sub⟩ := List.forall_mem_cons.mp sub
  obtain ⟨g, moves, rfl⟩ := (reaches_pull_iff found).mp reached
  have busy := getElem?_modifyStream (f := fun cell => { cell with busy := true }) found
  -- Whatever happens to the element, the streams are as the pull from below left them.
  have after {taken : Except EvalError (Option Value)} {g₁ : Host}
      (pulls : Reaches (fun n => pull n feed) (h.setBusy id true) taken g₁)
      (works : I g₁ → (∀ v, taken = .ok (some v) → P v) →
        I g ∧ (∀ m ∈ K, g.streams[m.index]? = g₁.streams[m.index]?) ∧
          (∀ w, result = .ok (some w) → P w) ∧
            List.Forall₂ (Applied I t) (given? taken).toList (given? result).toList) :
      ∃ new, Fetched K I P src (id :: own) s h new (g.setBusy id false) ∧
        Serves I src (g.setBusy id false) (.map t :: below) (id :: own) id (xs ++ new)
          (zs ++ (given? result).toList) ∧ ∀ w, result = .ok (some w) → P w := by
    obtain ⟨new, fetched, serves', good⟩ := fetches own sub feed (serves.modifyStream apart)
      (offers.modifyStream spares inside apart) pulls
    obtain ⟨_, offers', -⟩ := fetched.source
    obtain ⟨inv, kept, good', made'⟩ := works offers'.inv good
    have fetched' := fetched.of_kept source inv kept
    have serves'' := serves'.of_same fun m mem => kept m (sub m mem)
    have cell := getElem?_modifyStream (f := fun cell => { cell with busy := false })
      ((fetched'.others id inside apart).trans busy)
    exact ⟨new, fetched'.before.after spares inside apart,
      .map (serves''.modifyStream apart) cell apart (List.rel_append made made'), good'⟩
  rcases reaches_advance_mapped_iff.mp moves with
    ⟨e, fails, rfl⟩ | ⟨ends, rfl⟩ | ⟨v, g₁, changed, pulls, changes, rfl⟩
  · exact after fails fun inv _ => ⟨inv, fun _ _ => rfl, by rintro w ⟨⟩, .cons rfl .nil⟩
  · exact after ends fun inv _ => ⟨inv, fun _ _ => rfl, by rintro w ⟨⟩, .nil⟩
  · refine after pulls fun inv good => ?_
    obtain ⟨n, ho⟩ := changes
    obtain ⟨inv', kept, good'⟩ := spares.works (List.mem_cons_self ..) inv (good v rfl) ho
    refine ⟨inv', kept, fun w same => ?_, ?_⟩
    · cases changed with
      | error e => cases same
      | ok w' =>
        cases same
        exact good' w rfl
    · rw [given?_map_some]
      exact .cons ⟨g₁, g, inv, n, ho⟩ .nil

/-- A slice that is being asked for an element has taken `ys` from below so far. -/
structure Slicing (I : Host → Prop) (src : StreamId) (h : Host) (below : List Layer)
    (own : List StreamId) (feed id : StreamId) (cut : Slice) (budget : Option Nat)
    (xs ys : List Given) : Prop where
  serves : Serves I src h below own feed xs ys
  cell : h.streams[id.index]? = some ⟨.sliced feed cut budget ys.length, true⟩
  bounded : cut.Bounded budget ys.length

variable {cut : Slice} {budget : Option Nat} {taken : Except EvalError (Option Value)}

/-- A pull from below does not touch the slice, so it can go on counting from where it was. -/
theorem Slicing.pulled (slicing : Slicing I src h below own feed id cut budget xs ys)
    (spares : Spares K I P layers) (inside : id ∈ K) (apart : id ∉ src :: own)
    (fetches : Fetches K I P src below own feed) (offers : Offers I P src s h)
    (pulls : Reaches (fun n => pull n feed)
      (h.setCursor id (.sliced feed cut (budget.map (· - 1)) ys.length)) taken g) :
    ∃ new, Fetched K I P src (id :: own) s h new g ∧
      Serves I src g below own feed (xs ++ new) (ys ++ (given? taken).toList) ∧
      g.streams[id.index]? = some ⟨.sliced feed cut (budget.map (· - 1)) ys.length, true⟩ ∧
      ∀ v, taken = .ok (some v) → P v := by
  obtain ⟨new, fetched, serves, good⟩ := fetches (slicing.serves.modifyStream apart)
    (offers.modifyStream spares inside apart) pulls
  have cell := (fetched.others id inside apart).trans (getElem?_modifyStream slicing.cell)
  exact ⟨new, fetched.before, serves, cell, good⟩

/-- What comes from below counts, whether it belongs to the slice or not. -/
theorem Slicing.counted {x : Given} (slicing : Slicing I src h below own feed id cut budget xs ys)
    (spares : Spares K I P layers) (inside : id ∈ K) (apart : id ∉ src :: own)
    (fetches : Fetches K I P src below own feed) (offers : Offers I P src s h)
    (unspent : budget ≠ some 0)
    (pulls : Reaches (fun n => pull n feed)
      (h.setCursor id (.sliced feed cut (budget.map (· - 1)) ys.length)) taken g)
    (given : given? taken = some x) :
    let g' := g.setCursor id (.sliced feed cut (budget.map (· - 1)) (ys.length + 1))
    ∃ new, Fetched K I P src (id :: own) s h new g' ∧
      Slicing I src g' below own feed id cut (budget.map (· - 1)) (xs ++ new) (ys ++ [x]) ∧
      ∀ v, taken = .ok (some v) → P v := by
  intro g'
  obtain ⟨new, fetched, serves, cell, good⟩ :=
    slicing.pulled spares inside apart fetches offers pulls
  rw [given, Option.toList_some] at serves
  have one_more : (ys ++ [x]).length = ys.length + 1 := List.length_append
  have cell' : g'.streams[id.index]? =
      some ⟨.sliced feed cut (budget.map (· - 1)) (ys ++ [x]).length, true⟩ := by
    rw [one_more]
    exact getElem?_modifyStream cell
  have bounded := (slicing.bounded.next unspent).2
  exact ⟨new, fetched.after spares inside apart,
    ⟨serves.modifyStream apart, cell', one_more ▸ bounded⟩, good⟩

/-- A slice takes elements from below until one belongs to it. -/
theorem fetches_advance_sliced (slicing : Slicing I src h below own feed id cut budget xs ys)
    (spares : Spares K I P layers) (inside : id ∈ K) (apart : id ∉ src :: own)
    (fetches : Fetches K I P src below own feed) (offers : Offers I P src s h)
    (reached : Reaches (fun n => advance n id (.sliced feed cut budget ys.length)) h result h') :
    ∃ new ys' budget', Fetched K I P src (id :: own) s h new h' ∧
      Slicing I src h' below own feed id cut budget' (xs ++ new) ys' ∧
      cut.keep ys' = cut.keep ys ++ (given? result).toList ∧ ∀ v, result = .ok (some v) → P v := by
  -- By induction on how many elements it may still skip.
  obtain ⟨k, at_k⟩ : ∃ k, k = cut.start - ys.length := ⟨_, rfl⟩
  induction k using Nat.strong_induction_on generalizing h s xs ys budget with
  | _ k ih =>
  by_cases spent : budget = some 0
  · subst spent
    obtain ⟨rfl, rfl⟩ := reached.unique reaches_advance_spent (steady_advance id _)
    exact ⟨[], ys, some 0, ⟨⟨s, offers, .nil s⟩, fun _ _ _ => rfl⟩, by simpa using slicing,
      by simp, nofun⟩
  obtain ⟨taken, g, pulls, rest⟩ := (reaches_advance_sliced_iff spent).mp reached
  rcases taken with e | _ | v
  · obtain ⟨rfl, rfl⟩ := rest
    obtain ⟨new, fetched, slicing', -⟩ :=
      slicing.counted spares inside apart fetches offers spent pulls (given?_failure e)
    exact ⟨new, _, _, fetched, slicing', Slice.keep_append_error e, nofun⟩
  · obtain ⟨rfl, rfl⟩ := rest
    obtain ⟨new, fetched, serves, cell, -⟩ :=
      slicing.pulled spares inside apart fetches offers pulls
    rw [given?_end, Option.toList_none, List.append_nil] at serves
    exact ⟨new, ys, _, fetched, ⟨serves, cell, (slicing.bounded.next spent).1⟩, by simp, nofun⟩
  · obtain ⟨new, fetched, slicing', good⟩ :=
      slicing.counted spares inside apart fetches offers spent pulls (given?_element v)
    by_cases contains : cut.contains ys.length = true
    · simp only [if_pos contains] at rest
      obtain ⟨rfl, rfl⟩ := rest
      exact ⟨new, _, _, fetched, slicing', Slice.keep_append_of_contains contains _, good⟩
    · -- The element is not the slice's to give, and the next one is closer to its start.
      simp only [if_neg contains] at rest
      have before := slicing.bounded.skips spent contains
      have one_more : (ys ++ [Except.ok v]).length = ys.length + 1 := List.length_append
      obtain ⟨s', offers', -⟩ := fetched.source
      obtain ⟨new', ys', budget', fetched', slicing'', keep, good'⟩ :=
        ih (cut.start - (ys.length + 1)) (by omega) slicing' offers' (by rwa [one_more])
          (by rw [one_more])
      rw [Slice.keep_append_of_not_contains contains] at keep
      rw [List.append_assoc] at slicing''
      exact ⟨new ++ new', ys', budget', fetched.trans offers' fetched', slicing'', keep, good'⟩

/-- A slice gives those of the elements it takes that belong to it. -/
theorem fetches_slice (spares : Spares K I P layers) (sub : ∀ m ∈ own, m ∈ K)
    (fetches : ∀ own, (∀ m ∈ own, m ∈ K) → ∀ feed, Fetches K I P src below own feed) :
    Fetches K I P src (.slice cut :: below) own id := by
  intro h s xs zs result h' serves offers reached
  cases serves with
  | @slice _ own feed _ _ budget _ ys serves found apart bounded =>
    have ⟨inside, sub⟩ := List.forall_mem_cons.mp sub
    obtain ⟨g, moves, rfl⟩ := (reaches_pull_iff found).mp reached
    have busy := getElem?_modifyStream (f := fun cell => { cell with busy := true }) found
    obtain ⟨new, ys', budget', fetched, slicing, keep, good⟩ :=
      fetches_advance_sliced ⟨serves.modifyStream apart, busy, bounded⟩ spares inside apart
        (fetches own sub feed) (offers.modifyStream spares inside apart) moves
    have around : Fetched K I P src (id :: own) s h new g :=
      fetched.before.mono (List.cons_subset.mpr ⟨List.mem_cons_self .., List.Subset.refl _⟩)
    have serves' : Serves I src (g.setBusy id false) (.slice cut :: below) (id :: own) id
        (xs ++ new) (cut.keep ys') :=
      .slice (slicing.serves.modifyStream apart) (getElem?_modifyStream slicing.cell) apart
        slicing.bounded
    exact ⟨new, around.after spares inside apart, keep ▸ serves', good⟩
  | whole all serves =>
    obtain ⟨new, fetched, serves', good⟩ := fetches own sub id serves offers reached
    exact ⟨new, fetched, .whole all serves', good⟩

/-- Pulls through a view take from the source what the view makes its own of. -/
theorem fetches_all (spares : Spares K I P layers) (source : src ∈ K) (own : List StreamId)
    (sub : ∀ m ∈ own, m ∈ K) (id : StreamId) : Fetches K I P src layers own id := by
  induction layers generalizing own id with
  | nil =>
    intro h s xs ys result h' serves offers reached
    cases serves
    -- Without layers it is the source that is pulled.
    obtain ⟨result', g, pulls, fetched, good⟩ := offers.reaches_pull spares source
    obtain ⟨rfl, rfl⟩ := reached.unique pulls (steady_pull src)
    exact ⟨_, fetched, .source _, good⟩
  | cons layer below ih =>
    have fetches := ih (spares.mono (List.subset_cons_self ..))
    cases layer with
    | map t => exact fetches_map spares source sub fetches
    | slice cut => exact fetches_slice spares sub fetches

/-! ### Pulls that come to an end -/

/-- Work on elements comes to an end. -/
def Works (I : Host → Prop) (P : Value → Prop) (layers : List Layer) : Prop :=
  ∀ t, Layer.map t ∈ layers → ∀ g v, I g → P v →
    ∃ result g', Reaches (fun n => transform n t v) g result g'

/-- A pull through a view comes to an end. -/
def Answers (I : Host → Prop) (P : Value → Prop) (src : StreamId) (layers : List Layer)
    (own : List StreamId) (id : StreamId) : Prop :=
  ∀ ⦃h s xs ys⦄, Serves I src h layers own id xs ys → Offers I P src s h →
    ∃ result h', Reaches (fun n => pull n id) h result h'

theorem answers_map {t : Transform} (spares : Spares K I P (.map t :: below))
    (works : Works I P (.map t :: below)) (sub : ∀ m ∈ own, m ∈ K)
    (fetches : ∀ own, (∀ m ∈ own, m ∈ K) → ∀ feed, Fetches K I P src below own feed)
    (answers : ∀ own, (∀ m ∈ own, m ∈ K) → ∀ feed, Answers I P src below own feed) :
    Answers I P src (.map t :: below) own id := by
  intro h s xs zs serves offers
  cases serves with
  | @map _ own feed _ _ _ ys _ serves found apart made =>
  have ⟨inside, sub⟩ := List.forall_mem_cons.mp sub
  have serves₁ := serves.modifyStream (f := fun cell => { cell with busy := true }) apart
  have offers₁ := offers.modifyStream (f := fun cell => { cell with busy := true }) spares inside
    apart
  have moves {result : Except EvalError (Option Value)} {g : Host}
      (moves : Reaches (fun n => advance n id (.mapped feed t)) (h.setBusy id true) result g) :
      ∃ result h', Reaches (fun n => pull n id) h result h' :=
    ⟨result, _, (reaches_pull_iff found).mpr ⟨g, moves, rfl⟩⟩
  obtain ⟨taken, g, pulls⟩ := answers own sub feed serves₁ offers₁
  rcases taken with e | _ | v
  · exact moves (reaches_advance_mapped_iff.mpr (.inl ⟨e, pulls, rfl⟩))
  · exact moves (reaches_advance_mapped_iff.mpr (.inr (.inl ⟨pulls, rfl⟩)))
  · obtain ⟨_, fetched, -, good⟩ := fetches own sub feed serves₁ offers₁ pulls
    obtain ⟨_, offers', -⟩ := fetched.source
    obtain ⟨changed, g', changes⟩ := works t (List.mem_cons_self ..) g v offers'.inv (good v rfl)
    exact moves (reaches_advance_mapped_iff.mpr (.inr (.inr ⟨v, g, changed, pulls, changes, rfl⟩)))

/-- A slice that skips an element has one less to skip. -/
theorem answers_advance_sliced (slicing : Slicing I src h below own feed id cut budget xs ys)
    (spares : Spares K I P layers) (inside : id ∈ K) (apart : id ∉ src :: own)
    (fetches : Fetches K I P src below own feed) (answers : Answers I P src below own feed)
    (offers : Offers I P src s h) : ∃ result h',
      Reaches (fun n => advance n id (.sliced feed cut budget ys.length)) h result h' := by
  obtain ⟨k, at_k⟩ : ∃ k, k = cut.start - ys.length := ⟨_, rfl⟩
  induction k using Nat.strong_induction_on generalizing h s xs ys budget with
  | _ k ih =>
  by_cases spent : budget = some 0
  · exact spent ▸ ⟨_, _, reaches_advance_spent⟩
  have serves₁ : Serves I src (h.setCursor id (.sliced feed cut (budget.map (· - 1)) ys.length))
      below own feed xs ys := slicing.serves.modifyStream apart
  obtain ⟨taken, g, pulls⟩ := answers serves₁ (offers.modifyStream spares inside apart)
  rcases taken with e | _ | v
  · exact ⟨_, _, (reaches_advance_sliced_iff spent).mpr ⟨_, g, pulls, rfl, rfl⟩⟩
  · exact ⟨_, _, (reaches_advance_sliced_iff spent).mpr ⟨_, g, pulls, rfl, rfl⟩⟩
  · by_cases contains : cut.contains ys.length = true
    · refine ⟨.ok (some v), g.setCursor id (.sliced feed cut (budget.map (· - 1)) (ys.length + 1)),
        (reaches_advance_sliced_iff spent).mpr ⟨_, g, pulls, ?_⟩⟩
      simp only [if_pos contains, and_self]
    · have before := slicing.bounded.skips spent contains
      have one_more : (ys ++ [Except.ok v]).length = ys.length + 1 := List.length_append
      obtain ⟨new, fetched, slicing', -⟩ :=
        slicing.counted spares inside apart fetches offers spent pulls (given?_element v)
      obtain ⟨s', offers', -⟩ := fetched.source
      obtain ⟨result, h', goesOn⟩ :=
        ih (cut.start - (ys.length + 1)) (by omega) slicing' offers' (by rw [one_more])
      rw [one_more] at goesOn
      refine ⟨result, h', (reaches_advance_sliced_iff spent).mpr ⟨_, g, pulls, ?_⟩⟩
      simp only [if_neg contains]
      exact goesOn

theorem answers_all (spares : Spares K I P layers) (works : Works I P layers) (source : src ∈ K)
    (own : List StreamId) (sub : ∀ m ∈ own, m ∈ K) (id : StreamId) :
    Answers I P src layers own id := by
  induction layers generalizing own id with
  | nil =>
    intro h s xs ys serves offers
    cases serves
    obtain ⟨result, h', pulls, -⟩ := offers.reaches_pull spares source
    exact ⟨result, h', pulls⟩
  | cons layer below ih =>
    have spares' := spares.mono (List.subset_cons_self layer below)
    have fetches := fetches_all spares' source
    -- A stream answers if the one below it does, all the way down to the source.
    have answers := ih spares' fun t mem => works t (List.mem_cons_of_mem _ mem)
    cases layer with
    | map t => exact answers_map spares works sub fetches answers
    | slice cut =>
      intro h s xs zs serves offers
      cases serves with
      | @slice _ own feed _ _ budget _ ys serves found apart bounded =>
        have ⟨inside, sub⟩ := List.forall_mem_cons.mp sub
        have busy := getElem?_modifyStream (f := fun cell => { cell with busy := true }) found
        obtain ⟨result, g, moves⟩ :=
          answers_advance_sliced ⟨serves.modifyStream apart, busy, bounded⟩ spares inside apart
            (fetches own sub feed) (answers own sub feed)
            (offers.modifyStream spares inside apart)
        exact ⟨result, _, (reaches_pull_iff found).mpr ⟨g, moves, rfl⟩⟩
      | whole all serves => exact answers own sub id serves offers

end Evaluation

end TreeQuery
