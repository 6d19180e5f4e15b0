import TreeQuery.Proofs.Evaluation.Confined
import TreeQuery.Proofs.Evaluation.Views

/-!
# Pulls that take turns

Clones of a source with layers on top are opened, and then they are asked for elements in whatever
order. What a view counts is its own, and where the source stands is known to the source alone, so
the invariant has one part for the source and one for each view: what was taken through it so far,
and that it gave what its layers make of that. A pull through one view advances the first part and
its own; the others' streams are no matter to it.

So however the pulls take turns, the source is taken from its front, each element by one of the
pulls, and each view gives what its layers make of its share.

## Main definitions

* `Evaluation.Turns` — pulls through several views, in any order
* `Evaluation.Shared` — such pulls, with what each of them took from the source

## Main statements

* `Evaluation.exists_outcome_openViews` — clones with layers can be opened, and have no streams in
  common
* `Evaluation.Sharing.call` — what one pull keeps
* `Evaluation.shared_views` — every view gives what its layers make of its share
-/

namespace TreeQuery

/-- The streams that were added from the first host to the second. -/
def Host.added (h h' : Host) : Set StreamId :=
  {m | h.streams.size ≤ m.index ∧ m.index < h'.streams.size}

namespace Evaluation

open Host Run

variable {src : StreamId} {s s' : Source} {h h' g : Host} {layers below : List Layer}
  {own : List StreamId} {top : StreamId} {xs ys : List Given} {I : Host → Prop}
  {P : Value → Prop} {K : Set StreamId}

/-! ### Work that has nothing to do with the views -/

/-- A function knows nothing of the host. -/
theorem spares_function (functions : ∀ t, Layer.map t ∈ layers → ∃ f, t = .function f) :
    Spares K (fun _ => True) (fun _ => True) layers where
  changes _ _ := trivial
  records _ := trivial
  works {t n v g result g'} mem _ _ ho := by
    obtain ⟨f, rfl⟩ := functions t mem
    have reached : Reaches (fun n => transform n (.function f) v) g result g' := ⟨n, ho⟩
    obtain ⟨-, rfl⟩ := reached.unique (reaches_transform_function f v g) (steady_transform _ v)
    exact ⟨trivial, fun _ _ => rfl, fun _ _ => trivial⟩

theorem works_function (functions : ∀ t, Layer.map t ∈ layers → ∃ f, t = .function f) :
    Works I P layers := by
  intro t mem g v _ _
  obtain ⟨f, rfl⟩ := functions t mem
  exact ⟨f v, g, reaches_transform_function f v g⟩

/-- Whatever is done within a region, streams beside it are left alone. -/
theorem spares_of_sealed {R : Region} (beside : ∀ id ∈ K, id ∉ R.streams)
    (within : ∀ t, Layer.map t ∈ layers → t.In R) :
    Spares K (fun h => h.Sealed R) (fun v => v.In R) layers where
  changes inside sealed :=
    sealed.modifyStream fun mem => absurd mem (beside _ inside)
  records sealed := ⟨sealed.links, sealed.streams, sealed.names, sealed.newLinks, sealed.newStreams⟩
  works {t n v g result g'} mem sealed inside ho := by
    obtain ⟨sealed', same, good⟩ :=
      ((confines_all R n).transform t v (within t mem) inside).leaves g result g' sealed ho
    exact ⟨sealed', fun m mem' => same.streams m (beside m mem'), good⟩

/-! ### Opening views -/

/-- A view of a source: its layers, the streams that were added for them and the one that is
pulled. -/
structure View where
  layers : List Layer
  own : List StreamId
  top : StreamId

/-- A stream that is added does not get in the way of a view. -/
theorem Serves.addStream {c : Cursor} (serves : Serves I src h layers own top xs ys)
    (covers : ∀ m ∈ src :: own, m.index < h.streams.size) :
    Serves I src (h.addStream c).2 layers own top xs ys ∧ (h.addStream c).1 ∉ src :: own := by
  refine ⟨serves.of_same fun m mem => ?_, fun mem => Nat.lt_irrefl _ (covers _ mem)⟩
  exact (within_addStream c h).streams m (Set.notMem_empty m)
    (covers m (List.mem_cons_of_mem _ mem))

/-- Opening a view adds streams for its layers. It took and gave nothing so far. -/
theorem exists_outcome_openView (I : Host → Prop) (inside : src.index < h.streams.size)
    (layers : List Layer) :
    ∃ own top h', (openView src layers).outcome h = some (.ok (.stream top), h') ∧
      Moves ∅ {m | m ∈ own} h h' ∧ Serves I src h' layers own top [] [] := by
  induction layers with
  | nil =>
    exact ⟨[], src, h, rfl, (Within.refl ∅ h).moves (by simp), .source []⟩
  | cons layer below ih =>
    obtain ⟨own, feed, g, opens, moves, serves⟩ := ih
    -- The streams so far have been there before the next one is added.
    have covers : ∀ m ∈ src :: own, m.index < g.streams.size := by
      refine List.forall_mem_cons.mpr ⟨Nat.lt_of_lt_of_le inside moves.grows, ?_⟩
      exact moves.covers (by simp [Covers])
    have grows (c : Cursor) : Moves ∅ {m | m ∈ (g.addStream c).1 :: own} h (g.addStream c).2 :=
      (moves.trans (moves_addStream c g _)).mono subset_rfl fun m mem =>
        (List.mem_cons.mp mem).symm
    cases layer with
    | map t =>
      obtain ⟨serves', apart⟩ := serves.addStream (c := .mapped feed t) covers
      refine ⟨_, _, _, ?_, grows (.mapped feed t), .map serves' (getElem?_addStream ..) apart .nil⟩
      rw [openView, outcome_bind, opens]
      rfl
    | slice cut =>
      by_cases all : cut.all = true
      · refine ⟨own, feed, g, ?_, moves, .whole all serves⟩
        rw [openView, outcome_bind, opens]
        simp only [sliceStream, if_pos all]
        rfl
      · obtain ⟨serves', apart⟩ := serves.addStream (c := .sliced feed cut cut.stop 0) covers
        refine ⟨_, _, _, ?_, grows (.sliced feed cut cut.stop 0),
          .slice serves' (getElem?_addStream ..) apart
            (Slice.bounded_start (Bool.eq_false_iff.mpr all))⟩
        rw [openView, outcome_bind, opens]
        simp only [sliceStream, if_neg all]
        rfl

/-- Views can be opened, and no two have streams in common that were added. -/
theorem exists_outcome_openViews (I : Host → Prop) (inside : src.index < h.streams.size)
    (views : List (List Layer)) :
    ∃ vs : List View, ∃ h', vs.map View.layers = views ∧
      (views.mapM (openView src)).outcome h = some (.ok (vs.map fun v => .stream v.top), h') ∧
      Within ∅ h h' ∧ vs.Pairwise (fun v w => v.own.Disjoint w.own) ∧
      ∀ v ∈ vs, (∀ m ∈ v.own, m ∈ h.added h') ∧ Serves I src h' v.layers v.own v.top [] [] := by
  induction views generalizing h with
  | nil => exact ⟨[], h, rfl, rfl, .refl ∅ h, .nil, by simp⟩
  | cons layers views ih =>
    obtain ⟨own, top, g, opens, moves, serves⟩ := exists_outcome_openView I inside layers
    obtain ⟨vs, h', rfl, opens', within, disjoint, others⟩ :=
      ih (Nat.lt_of_lt_of_le inside moves.grows)
    -- The other views are opened on the host that the first one leaves.
    have first : ∀ m ∈ own, m ∈ h.added g := fun m mem =>
      (moves.stems m mem).resolve_left (Set.notMem_empty m)
    refine ⟨⟨layers, own, top⟩ :: vs, h', rfl, ?_, ?_, List.pairwise_cons.mpr ⟨?_, disjoint⟩,
      List.forall_mem_cons.mpr ⟨⟨fun m mem => ?_, serves.of_same fun m mem => ?_⟩, ?_⟩⟩
    · rw [List.mapM_cons, outcome_bind, opens]
      simp only
      rw [outcome_bind, opens']
      rfl
    · have unmoved : Moves ∅ ∅ h g := moves.mono subset_rfl (Set.empty_subset _)
      exact unmoved.within_trans within
    · intro v mem m mem' mem''
      exact Nat.lt_irrefl _ (Nat.lt_of_lt_of_le (first m mem').2 ((others v mem).1 m mem'').1)
    · exact ⟨(first m mem).1, Nat.lt_of_lt_of_le (first m mem).2 within.grows⟩
    · exact within.streams m (Set.notMem_empty m) (first m mem).2
    · intro v mem
      obtain ⟨inside', serves'⟩ := others v mem
      exact ⟨fun m mem' => ⟨Nat.le_trans moves.grows (inside' m mem').1, (inside' m mem').2⟩,
        serves'⟩

/-! ### Pulls in any order -/

/-- Views are pulled, each when it is its turn. The pulls are listed with the number of the view and
what they came to. -/
inductive Turns (tops : List StreamId) :
    Host → List (Nat × Except EvalError (Option Value)) → Host → Prop
  | nil (h : Host) : Turns tops h [] h
  | cons {i : Nat} {top : StreamId} {result : Except EvalError (Option Value)} {h g h' : Host}
      {calls : List (Nat × Except EvalError (Option Value))} (view : tops[i]? = some top)
      (pulls : Reaches (fun n => pull n top) h result g) (rest : Turns tops g calls h') :
      Turns tops h ((i, result) :: calls) h'

/-- A pull through a view, with what it took from the source. -/
structure Call where
  view : Nat
  taken : List Given
  result : Except EvalError (Option Value)

/-- What can be seen of a pull from outside. -/
def Call.shown (call : Call) : Nat × Except EvalError (Option Value) :=
  (call.view, call.result)

/-- What was taken through a view. -/
def takenBy (i : Nat) (calls : List Call) : List Given :=
  (calls.filter (·.view = i)).flatMap Call.taken

/-- What a view gave. -/
def givenBy (i : Nat) (calls : List Call) : List Given :=
  (calls.filter (·.view = i)).filterMap fun call => given? call.result

/-- Views are pulled, each when it is its turn, and every pull takes from the source what is listed
with it. -/
inductive Shared (src : StreamId) (tops : List StreamId) :
    Source → Host → List Call → Source → Host → Prop
  | nil {s : Source} {h : Host} (found : h.streams[src.index]? = some ⟨.source s, false⟩) :
      Shared src tops s h [] s h
  | cons {s s₁ s' : Source} {h g h' : Host} {call : Call} {calls : List Call} {top : StreamId}
      (found : h.streams[src.index]? = some ⟨.source s, false⟩)
      (view : tops[call.view]? = some top)
      (pulls : Reaches (fun n => pull n top) h call.result g) (gives : s.Gives call.taken s₁)
      (rest : Shared src tops s₁ g calls s' h') : Shared src tops s h (call :: calls) s' h'

variable {i : Nat} {calls done : List Call} {tops : List StreamId}

/-- All pulls together take the source from its front. -/
theorem Shared.gives (shared : Shared src tops s h calls s' h') :
    s.Gives (calls.flatMap Call.taken) s' := by
  induction shared with
  | nil => exact .nil _
  | cons _ _ _ gives _ ih => exact gives.append ih

theorem takenBy_sublist (i : Nat) (calls : List Call) :
    (takenBy i calls).Sublist (calls.flatMap Call.taken) :=
  List.filter_sublist.flatMap Call.taken

theorem takenBy_append_self (taken : List Given) (result : Except EvalError (Option Value)) :
    takenBy i (done ++ [⟨i, taken, result⟩]) = takenBy i done ++ taken := by
  simp [takenBy, List.filter_append]

theorem givenBy_append_self (taken : List Given) (result : Except EvalError (Option Value)) :
    givenBy i (done ++ [⟨i, taken, result⟩]) = givenBy i done ++ (given? result).toList := by
  cases result? : given? result <;> simp [givenBy, List.filter_append, result?]

theorem takenBy_append_other {call : Call} (other : call.view ≠ i) :
    takenBy i (done ++ [call]) = takenBy i done := by
  simp [takenBy, List.filter_append, other]

theorem givenBy_append_other {call : Call} (other : call.view ≠ i) :
    givenBy i (done ++ [call]) = givenBy i done := by
  simp [givenBy, List.filter_append, other]

/-! ### What pulls keep -/

variable {vs : List View} {v w : View}

/-- The streams of views are among those of `K`, and no two views have one in common that was added
for them. -/
structure Separate (K : Set StreamId) (src : StreamId) (vs : List View) : Prop where
  source : src ∈ K
  inside : ∀ v ∈ vs, ∀ m ∈ v.own, m ∈ K
  disjoint : vs.Pairwise fun v w => v.own.Disjoint w.own

theorem Separate.apart {j : Nat} (separate : Separate K src vs) (atI : vs[i]? = some v)
    (atJ : vs[j]? = some w) (other : i ≠ j) : v.own.Disjoint w.own := by
  obtain ⟨boundI, rfl⟩ := List.getElem?_eq_some_iff.mp atI
  obtain ⟨boundJ, rfl⟩ := List.getElem?_eq_some_iff.mp atJ
  have disjoint := List.pairwise_iff_getElem.mp separate.disjoint
  rcases Nat.lt_or_gt_of_ne other with before | behind
  · exact disjoint i j boundI boundJ before
  · exact (disjoint j i boundJ boundI behind).symm

/-- After some pulls the source stands ready, and each view stands where its own pulls have brought
it. -/
structure Sharing (I : Host → Prop) (P : Value → Prop) (src : StreamId) (vs : List View)
    (s : Source) (h : Host) (done : List Call) : Prop where
  offers : Offers I P src s h
  serves : ∀ i v, vs[i]? = some v →
    Serves I src h v.layers v.own v.top (takenBy i done) (givenBy i done)

/-- A pull through one view makes no difference to the others. -/
theorem Sharing.call {result : Except EvalError (Option Value)}
    (sharing : Sharing I P src vs s h done) (separate : Separate K src vs)
    (spares : Spares K I P (vs.flatMap View.layers)) (view : vs[i]? = some v)
    (pulls : Reaches (fun n => pull n v.top) h result h') :
    ∃ taken s', s.Gives taken s' ∧ Sharing I P src vs s' h' (done ++ [⟨i, taken, result⟩]) := by
  have mem := List.mem_of_getElem? view
  have spares' := spares.mono fun _ => List.mem_flatMap_of_mem mem
  obtain ⟨taken, fetched, serves, -⟩ := fetches_all spares' separate.source v.own
    (separate.inside v mem) v.top (sharing.serves i v view) sharing.offers pulls
  obtain ⟨s', offers, gives⟩ := fetched.source
  refine ⟨taken, s', gives, offers, fun j w atJ => ?_⟩
  by_cases same : i = j
  · subst same
    cases view.symm.trans atJ
    rw [takenBy_append_self, givenBy_append_self]
    exact serves
  · -- What the pull may have changed does not belong to another view.
    rw [takenBy_append_other same, givenBy_append_other same]
    have serves' := sharing.serves j w atJ
    refine serves'.of_same fun m own => ?_
    refine fetched.others m (separate.inside w (List.mem_of_getElem? atJ) m own) ?_
    rw [List.mem_cons, not_or]
    exact ⟨fun source => serves'.source_notMem (source ▸ own),
      fun own' => separate.apart view atJ same own' own⟩

/-- What one pull keeps, any number of them keeps. -/
theorem Sharing.turns {seen : List (Nat × Except EvalError (Option Value))}
    (sharing : Sharing I P src vs s h done) (separate : Separate K src vs)
    (spares : Spares K I P (vs.flatMap View.layers))
    (turns : Turns (vs.map View.top) h seen h') :
    ∃ s' calls, calls.map Call.shown = seen ∧
      Shared src (vs.map View.top) s h calls s' h' ∧
      Sharing I P src vs s' h' (done ++ calls) := by
  induction turns generalizing s done with
  | nil h => exact ⟨s, [], rfl, .nil sharing.offers.found, by rwa [List.append_nil]⟩
  | @cons i top result h g h' seen view pulls _ ih =>
    obtain ⟨v, atI, rfl⟩ := Option.map_eq_some_iff.mp ((List.getElem?_map ..).symm.trans view)
    obtain ⟨taken, s₁, gives, sharing₁⟩ := sharing.call separate spares atI pulls
    obtain ⟨s', calls, rfl, shared, sharing'⟩ := ih sharing₁
    refine ⟨s', ⟨i, taken, result⟩ :: calls, rfl,
      .cons sharing.offers.found view pulls gives shared, ?_⟩
    rwa [List.append_assoc] at sharing'

/-- Whatever view is next, it can be pulled. -/
theorem Sharing.exists_turns (sharing : Sharing I P src vs s h done) (separate : Separate K src vs)
    (spares : Spares K I P (vs.flatMap View.layers))
    (works : Works I P (vs.flatMap View.layers)) (schedule : List Nat)
    (valid : ∀ i ∈ schedule, i < vs.length) :
    ∃ seen h', seen.map Prod.fst = schedule ∧ Turns (vs.map View.top) h seen h' := by
  induction schedule generalizing s h done with
  | nil => exact ⟨[], h, rfl, .nil h⟩
  | cons i schedule ih =>
    obtain ⟨bound, valid⟩ := List.forall_mem_cons.mp valid
    have atI := List.getElem?_eq_getElem bound
    have mem := List.getElem_mem bound
    have sub : vs[i].layers ⊆ vs.flatMap View.layers := fun _ => List.mem_flatMap_of_mem mem
    obtain ⟨result, g, pulls⟩ := answers_all (spares.mono sub) (fun t mem => works t (sub mem))
      separate.source vs[i].own (separate.inside _ mem) vs[i].top (sharing.serves i _ atI)
      sharing.offers
    obtain ⟨taken, s₁, -, sharing₁⟩ := sharing.call separate spares atI pulls
    obtain ⟨seen, h', rfl, turns⟩ := ih sharing₁ valid
    exact ⟨(i, result) :: seen, h', rfl, .cons (by rw [List.getElem?_map, atI]; rfl) pulls turns⟩

/-- Take a source and any number of views of it. In whatever order the views are pulled, what was
taken so far is what the source gives first, each of it taken by one of the pulls. What was taken
through one view is what its layers make its elements of. And if the work on elements comes to an
end, the views can be pulled in every order. -/
theorem shared_views {views : List (List Layer)} {h₀ : Host}
    (found : h.streams[src.index]? = some ⟨.source s, false⟩) (of : s.supply.Of P)
    (opened : (views.mapM (openView src)).outcome h = some (.ok (tops.map .stream), h₀))
    (spares : Spares ({src} ∪ h.added h₀) I P views.flatten) (inv : I h₀) :
    (∀ seen h', Turns tops h₀ seen h' → ∃ s' calls, calls.map Call.shown = seen ∧
      Shared src tops s h₀ calls s' h' ∧ s.Gives (calls.flatMap Call.taken) s' ∧
      ∀ i layers, views[i]? = some layers →
        (takenBy i calls).Sublist (calls.flatMap Call.taken) ∧
        Makes I layers (takenBy i calls) (givenBy i calls)) ∧
    (Works I P views.flatten → ∀ schedule : List Nat, (∀ i ∈ schedule, i < views.length) →
      ∃ seen h', seen.map Prod.fst = schedule ∧ Turns tops h₀ seen h') := by
  have inside := (Array.getElem?_eq_some_iff.mp found).1
  obtain ⟨vs, g, rfl, opens, within, disjoint, serves⟩ := exists_outcome_openViews I inside views
  obtain ⟨same, rfl⟩ := Prod.mk.inj (Option.some.inj (opened.symm.trans opens))
  obtain rfl : tops = vs.map View.top := by
    refine List.map_injective_iff.mpr (fun _ _ => Value.stream.inj) ?_
    rw [Except.ok.inj same, List.map_map]
    rfl
  -- Each view has streams of its own on top of the one they share.
  have separate : Separate ({src} ∪ h.added h₀) src vs :=
    ⟨.inl rfl, fun v mem m own => .inr ((serves v mem).1 m own), disjoint⟩
  rw [← List.flatMap_def] at spares ⊢
  have sharing : Sharing I P src vs s h₀ [] :=
    ⟨⟨inv, (within.streams src (Set.notMem_empty src) inside).trans found, of⟩,
      fun i v atI => (serves v (List.mem_of_getElem? atI)).2⟩
  refine ⟨fun seen h' turns => ?_, fun works schedule valid => ?_⟩
  · obtain ⟨s', calls, rfl, shared, sharing'⟩ := sharing.turns separate spares turns
    refine ⟨s', calls, rfl, shared, shared.gives, fun i layers is => ⟨takenBy_sublist i calls, ?_⟩⟩
    obtain ⟨v, atI, rfl⟩ := Option.map_eq_some_iff.mp ((List.getElem?_map ..).symm.trans is)
    exact (sharing'.serves i v atI).makes
  · exact sharing.exists_turns separate spares works schedule (by simpa using valid)

/-- The numbers from one to three. -/
def oneToThree : Source :=
  ⟨"s", true, .listed [.element (.integer 1), .element (.integer 2), .element (.integer 3)], 0⟩

/-- A clone, a slice without the first and arrays around the elements. -/
def threeViews : List (List Layer) :=
  [[], [.slice (.between 1 none)], [.map (.function fun v => .ok (.array [v]))]]

/-- The clone gives all of its share, the slice all but the first, and the third view arrays of one
element each. -/
theorem shared_views_three :
    ∃ h₀, (threeViews.mapM (openView ⟨0⟩)).outcome (Host.empty.addStream (.source oneToThree)).2 =
        some (.ok ([⟨0⟩, ⟨1⟩, ⟨2⟩].map .stream), h₀) ∧
      (∀ seen h', Turns [⟨0⟩, ⟨1⟩, ⟨2⟩] h₀ seen h' → ∃ s' calls, calls.map Call.shown = seen ∧
        oneToThree.Gives (calls.flatMap Call.taken) s' ∧
        givenBy 0 calls = takenBy 0 calls ∧
        givenBy 1 calls = (Slice.between 1 none).keep (takenBy 1 calls) ∧
        List.Forall₂ (fun x y => y = x.bind fun v => .ok (.array [v]))
          (takenBy 2 calls) (givenBy 2 calls)) ∧
      ∃ seen h', seen.map Prod.fst = [1, 0, 2, 1] ∧ Turns [⟨0⟩, ⟨1⟩, ⟨2⟩] h₀ seen h' := by
  have functions : ∀ t, Layer.map t ∈ threeViews.flatten → ∃ f, t = .function f := by
    intro t mem
    simp only [threeViews, List.flatten_cons, List.flatten_nil, List.nil_append,
      List.append_nil, List.mem_append, List.mem_singleton, reduceCtorEq, false_or,
      Layer.map.injEq] at mem
    exact ⟨_, mem⟩
  have plain : oneToThree.supply.Of fun _ => True := by
    rintro item mem
    simp only [List.mem_cons, List.not_mem_nil, or_false] at mem
    rcases mem with rfl | rfl | rfl <;> exact ⟨_, rfl, fun _ _ => trivial⟩
  obtain ⟨h₀, opened⟩ : ∃ h₀, (threeViews.mapM (openView ⟨0⟩)).outcome
      (Host.empty.addStream (.source oneToThree)).2 =
        some (.ok ([⟨0⟩, ⟨1⟩, ⟨2⟩].map .stream), h₀) := ⟨_, rfl⟩
  obtain ⟨shares, runs⟩ := shared_views (I := fun _ => True)
    (getElem?_addStream (.source oneToThree) .empty) plain opened (spares_function functions)
    trivial
  refine ⟨h₀, opened, fun seen h' turns => ?_, runs (works_function functions) _ (by decide)⟩
  -- One view for each way to read the stream: as it is, a slice of it, a function of its values.
  obtain ⟨s', calls, same, -, gives, makes⟩ := shares seen h' turns
  obtain ⟨_, rfl, applied⟩ := (makes 2 _ rfl).2
  obtain ⟨_, rfl, sliced⟩ := (makes 1 _ rfl).2
  exact ⟨s', calls, same, gives, (makes 0 _ rfl).2, sliced,
    applied.imp fun _ _ applied => applied_function applied⟩

end Evaluation

end TreeQuery
