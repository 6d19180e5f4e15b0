import TreeQuery.Proofs.Evaluation.Rules
import TreeQuery.Proofs.Query.Sequence
import TreeQuery.Proofs.Run.Tracks
import TreeQuery.Proofs.Value.Linked
import TreeQuery.Value.Document

/-!
# Links make no difference

Wherever a query looks at a value, it first follows links; where it does not look, it leaves them
alone, and they are followed at last when the result is written as a document. So a value whose
links lead to values comes to what the closed value comes to that it stands for: the same failure,
or a value that stands for the same result.

The argument goes along the evaluator: each of its functions tracks what it does on the closed
value.

## Main statements

* `Evaluation.tracks_select`, `Evaluation.tracks_eval` — steps and filters
* `Evaluation.tracks_toJson` — documents
* `Query.link_transparency` — links in place of parts change neither the failure nor the document
-/

namespace TreeQuery

open Run Value

/-- A host with these links. -/
def HasLinks (links : Array Resolver) (h : Host) : Prop := h.links = links

namespace Evaluation

variable {links : Array Resolver} {v u a b : Value} {α β : Type} {R : α → β → Prop}

/-! ### Following links -/

theorem outcome_resolveOnce {h : Host} {id : LinkId} (leads : LeadsTo h.links id v) :
    (resolveOnce id).outcome h = some (.ok v, h.record (.resolution id none)) := by
  obtain ⟨label, found⟩ := leads
  obtain ⟨bound, found'⟩ := Array.getElem?_eq_some_iff.mp found
  -- The resolver is its own successor.
  have same : h.links.set! id.index ⟨label, .give v, []⟩ = h.links := by
    rw [Array.set!_eq_setIfInBounds, Array.setIfInBounds, dif_pos bound, ← found',
      Array.set_getElem_self]
  simp only [resolveOnce, outcome_ofOutcome, found, Resolver.advance, same]
  rfl

/-- Resolving a link first, a run goes on as it would with the target. -/
theorem tracks_link {id : LinkId} (leads : LeadsTo links id v) {r : Nat → Value → Evaluation α}
    {l : Nat → Evaluation α} {r' : Nat → Evaluation β}
    (step : ∀ n, l (n + 1) = resolveOnce id >>= r n)
    (h : Tracks (HasLinks links) (fun n => r n v) r' R) : Tracks (HasLinks links) l r' R := by
  rintro g t rfl
  obtain ⟨result, result', s', good, agree, n, outcomes⟩ :=
    h (g.record (.resolution id none)) t rfl
  refine ⟨result, result', s', good, agree, n + 1, fun m le => ?_⟩
  obtain ⟨m, rfl⟩ : ∃ k, m = k + 1 := ⟨m - 1, by omega⟩
  refine ⟨?_, (outcomes (m + 1) (by omega)).2⟩
  rw [step, outcome_bind, outcome_resolveOnce leads]
  exact (outcomes m (by omega)).1

/-- A run that follows a link before anything else need only be looked at on values at hand. -/
theorem tracks_follow {r : Nat → Value → Evaluation α} {r' : Nat → Evaluation β}
    (step : ∀ n id, r (n + 1) (.link id) = resolveOnce id >>= r n) (stands : Stands links v u)
    (atHand : ∀ v, Stands links v u → v.kind ≠ .link →
      Tracks (HasLinks links) (fun n => r n v) r' R) :
    Tracks (HasLinks links) (fun n => r n v) r' R :=
  stands.follow atHand fun id _ leads => tracks_link leads fun n => step n id

/-! ### Steps -/

theorem tracks_elementAt {as : List α} {bs : List β} (all : List.Forall₂ R as bs) (i : Nat) :
    Tracks (HasLinks links) (fun _ => elementAt as i) (fun _ => elementAt bs i) R := by
  have length := all.length_eq
  unfold elementAt
  by_cases bound : i < as.length
  · rw [List.getElem?_eq_getElem bound, List.getElem?_eq_getElem (length ▸ bound)]
    exact tracks_pure (all.get bound (length ▸ bound))
  · rw [List.getElem?_eq_none (by omega), List.getElem?_eq_none (by omega), length]
    exact tracks_throw _

theorem StandAll.slice {vs us : List Value} (h : StandAll links vs us) (s : Slice) :
    StandAll links (s.apply vs) (s.apply us) := by
  unfold Slice.apply
  rw [h.length_eq]
  exact List.forall₂_drop _ (List.forall₂_take _ h)

/-- A value without parts that is no link and no stream stands for itself. -/
theorem tracks_flat {w : Value} (closed : w.isClosed = true) (flat : w.depth = 0) :
    Tracks (HasLinks links) (fun _ => (pure w : Evaluation Value)) (fun _ => pure w)
      (Stands links) :=
  tracks_pure (.flat (closedWithin_of_flat closed flat))

theorem tracks_select_key (name : String) (stands : Stands links v u) :
    Tracks (HasLinks links) (fun n => select n (.key name) v) (fun n => select n (.key name) u)
      (Stands links) := by
  -- All that is no array is looked at only for what it has under the name.
  have lookup {v u : Value} (stands : Stands links v u) (noLink : v.kind ≠ .link)
      (noArray : v.kind ≠ .array) :
      Tracks (HasLinks links) (fun n => select n (.key name) v) (fun n => select n (.key name) u)
        (Stands links) := by
    have same := stands.kind_eq noLink
    refine Tracks.of_succ ?_
    simp only [select_key noLink stands.kind_ne_stream noArray, select_key (same ▸ noLink)
      (same ▸ stands.kind_ne_stream) (same ▸ noArray)]
    refine tracks_pure ?_
    have found := stands.member? noLink name
    generalize v.member? name = x, u.member? name = y at found
    cases found with
    | none => exact .flat (closedWithin_of_flat rfl rfl)
    | some found => exact found
  induction stands with
  | link leads _ ih => exact tracks_link leads (fun n => by rw [select]) ih
  | array length _ ih =>
    refine Tracks.of_succ ?_
    simp only [select]
    refine (tracks_mapM (forall₂_of_zip length ih)).bind ?_
    exact fun _ _ all => tracks_pure (stands_array all)
  | @flat v closed =>
    cases v with
    | array items => exact absurd closed.2 (Nat.not_succ_le_zero _)
    | link id => exact absurd closed not_closedWithin_link
    | _ => exact lookup (.flat closed) (by rintro ⟨⟩) (by rintro ⟨⟩)
  | object length names members =>
    exact lookup (.object length names members) (by rintro ⟨⟩) (by rintro ⟨⟩)
  | record length values => exact lookup (.record length values) (by rintro ⟨⟩) (by rintro ⟨⟩)

theorem tracks_select_index (i : Nat) (stands : Stands links v u) :
    Tracks (HasLinks links) (fun n => select n (.index i) v) (fun n => select n (.index i) u)
      (Stands links) := by
  induction stands with
  | link leads _ ih => exact tracks_link leads (fun n => by rw [select]) ih
  | array length items =>
    refine Tracks.of_succ ?_
    simp only [select]
    exact tracks_elementAt (forall₂_of_zip length items) i
  | @flat v closed =>
    refine Tracks.of_succ ?_
    cases v with
    | string text =>
      simp only [select]
      refine (tracks_elementAt (List.forall₂_eq_eq_eq ▸ rfl) i).bind ?_
      rintro c _ rfl
      exact tracks_flat rfl rfl
    | bytes bs =>
      simp only [select]
      refine (tracks_elementAt (List.forall₂_eq_eq_eq ▸ rfl) i).bind ?_
      rintro b _ rfl
      exact tracks_flat rfl rfl
    | array items => exact absurd closed.2 (Nat.not_succ_le_zero _)
    | link id => exact absurd closed not_closedWithin_link
    | stream id => exact absurd closed not_closedWithin_stream
    | _ => simp only [select]; exact tracks_flat rfl rfl
  | object => exact Tracks.of_succ (by simp only [select]; exact tracks_flat rfl rfl)
  | record => exact Tracks.of_succ (by simp only [select]; exact tracks_flat rfl rfl)

theorem tracks_select_slice (r : Slice) (stands : Stands links v u) :
    Tracks (HasLinks links) (fun n => select n (.slice r) v) (fun n => select n (.slice r) u)
      (Stands links) := by
  induction stands with
  | link leads _ ih => exact tracks_link leads (fun n => by rw [select]) ih
  | array length items =>
    refine Tracks.of_succ ?_
    simp only [select]
    exact tracks_pure (stands_array (StandAll.slice (forall₂_of_zip length items) r))
  | @flat v closed =>
    refine Tracks.of_succ ?_
    cases v with
    | array items => exact absurd closed.2 (Nat.not_succ_le_zero _)
    | link id => exact absurd closed not_closedWithin_link
    | stream id => exact absurd closed not_closedWithin_stream
    | _ => simp only [select]; exact tracks_flat rfl rfl
  | object => exact Tracks.of_succ (by simp only [select]; exact tracks_flat rfl rfl)
  | record => exact Tracks.of_succ (by simp only [select]; exact tracks_flat rfl rfl)

/-- A step into a value tracks the step into the closed value that it stands for. -/
theorem tracks_select (s : Selector) (stands : Stands links v u) :
    Tracks (HasLinks links) (fun n => select n s v) (fun n => select n s u) (Stands links) := by
  cases s with
  | identity =>
    refine tracks_follow (fun n id => by rw [select]) stands fun v stands noLink => ?_
    refine Tracks.of_succ ?_
    simp only [select_identity noLink, select_identity (stands.kind_eq noLink ▸ noLink)]
    exact tracks_pure stands
  | key name => exact tracks_select_key name stands
  | index i => exact tracks_select_index i stands
  | slice r => exact tracks_select_slice r stands

/-! ### Operands and results -/

/-- What is left when a value is resolved is no link. -/
theorem tracks_resolve (stands : Stands links v u) :
    Tracks (HasLinks links) (fun n => resolve n v) (fun n => resolve n u)
      fun a b => Stands links a b ∧ a.kind ≠ .link := by
  have atHand {w : Value} (noLink : w.kind ≠ .link) (n : Nat) : resolve (n + 1) w = pure w := by
    cases w <;> first | exact absurd rfl noLink | rfl
  refine tracks_follow (fun n id => by rw [resolve]) stands fun v stands noLink => ?_
  refine Tracks.of_succ ?_
  simp only [atHand noLink, atHand (stands.kind_eq noLink ▸ noLink)]
  exact tracks_pure ⟨stands, noLink⟩

theorem tracks_operate {a' b' : Value} (left : Stands links a a') (noLink : a.kind ≠ .link)
    (right : Stands links b b') (noLink' : b.kind ≠ .link) (f : Filter) (op : Operator) :
    Tracks (HasLinks links) (fun _ => operate f op a b) (fun _ => operate f op a' b')
      (Stands links) := by
  -- Only the numbers and the shapes of the operands count, and these are the same.
  have same : operate f op a' b' = operate f op a b := by
    simp only [operate, left.number?_eq noLink, right.number?_eq noLink', left.kind_eq noLink,
      right.kind_eq noLink']
  simp only [same]
  unfold operate
  split
  · exact tracks_flat rfl rfl
  · exact tracks_throw _

theorem tracks_settle (stands : Stands links v u) :
    Tracks (HasLinks links) (fun n => settle n v) (fun n => settle n u) (Stands links) := by
  obtain ⟨settled, closed⟩ := stands.settled_and_isClosed
  obtain ⟨n, stays⟩ := settle_of_settled settled
  intro h t good
  refine ⟨.ok v, .ok u, h, good, .value stands, max n (u.depth + 1), fun m le => ?_⟩
  have stays' : settle m u = pure u := settle_of_closed ⟨closed, Nat.le_refl _⟩ (by omega)
  simp only [stays m (by omega), stays', outcome_pure, and_self]

/-! ### Filters -/

/-- A filter applied to a value tracks the filter applied to the closed value that it stands for. -/
theorem tracks_eval (f : Filter) {v u : Value} (stands : Stands links v u) :
    Tracks (HasLinks links) (fun n => eval n f v) (fun n => eval n f u) (Stands links) := by
  -- A link is followed first. What it leads to stands for the same closed value, and by then both
  -- sides are of one kind and take the same case.
  refine tracks_follow (fun n id => by rw [eval]) stands fun v stands noLink => ?_
  refine Tracks.of_succ ?_
  have noStream := stands.kind_ne_stream
  have noLink' := stands.kind_eq noLink ▸ noLink
  have noStream' := stands.kind_eq noLink ▸ noStream
  cases f with
  | text s =>
    simp only [eval_text noLink noStream, eval_text noLink' noStream']
    exact tracks_flat rfl rfl
  | number x =>
    simp only [eval_number noLink noStream, eval_number noLink' noStream']
    exact tracks_flat rfl rfl
  | length =>
    simp only [eval_length noLink noStream, eval_length noLink' noStream', stands.size?_eq noLink]
    cases v.size? with
    | none => exact tracks_flat rfl rfl
    | some size => exact tracks_flat rfl rfl
  | select s =>
    simp only [eval_select noLink, eval_select noLink']
    exact tracks_select s stands
  | path steps =>
    simp only [eval_path noLink, eval_path noLink']
    exact tracks_foldlM (fun s _ v u stands => tracks_select s stands) stands
  | pipe stages =>
    simp only [eval_pipe noLink, eval_pipe noLink']
    refine tracks_foldlM (fun g mem v u stands => ?_) stands
    have smaller := Filter.size_le_of_mem mem
    exact tracks_eval g stands
  | binary op left right =>
    simp only [eval_binary noLink noStream, eval_binary noLink' noStream']
    refine (tracks_eval left stands).bind fun a a' standsA => ?_
    refine (tracks_eval right stands).bind fun b b' standsB => ?_
    refine (tracks_resolve standsA).bind ?_
    rintro a a' ⟨standsA, noLinkA⟩
    refine (tracks_resolve standsB).bind ?_
    rintro b b' ⟨standsB, noLinkB⟩
    exact tracks_operate standsA noLinkA standsB noLinkB _ op
  | group members =>
    have each : ∀ g ∈ members, Tracks (HasLinks links) (fun n => Query.run n g v)
        (fun n => Query.run n g u) (Stands links) := by
      intro g mem
      have smaller := Filter.size_le_of_mem mem
      exact (tracks_eval g stands).bind fun _ _ => tracks_settle
    simp only [eval_group noLink noStream, eval_group noLink' noStream']
    exact (tracks_mapM (List.forall₂_same.mpr each)).bind fun _ _ all =>
      tracks_pure (stands_array all)
  | mapping entries =>
    have each : ∀ entry ∈ entries,
        Tracks (HasLinks links) (fun n => do return (entry.1, ← Query.run n entry.2 v))
          (fun n => do return (entry.1, ← Query.run n entry.2 u)) (MemberStands links) := by
      intro entry mem
      have smaller := Filter.size_le_of_mem_entries mem
      refine ((tracks_eval entry.2 stands).bind fun _ _ => tracks_settle).bind fun _ _ related => ?_
      exact tracks_pure ⟨rfl, related⟩
    simp only [eval_mapping noLink noStream, eval_mapping noLink' noStream']
    exact (tracks_mapM (List.forall₂_same.mpr each)).bind fun _ _ all =>
      tracks_pure (stands_ofMembers all)
termination_by f.size
decreasing_by
  all_goals
    simp only [Filter.size]
    omega

/-- A query applied to a value tracks the query applied to the closed value that it stands for. -/
theorem tracks_run (f : Filter) (stands : Stands links v u) :
    Tracks (HasLinks links) (fun n => Query.run n f v) (fun n => Query.run n f u)
      (Stands links) :=
  (tracks_eval f stands).bind fun _ _ => tracks_settle

/-! ### Documents -/

/-- A value is written as the closed value is that it stands for. -/
theorem tracks_toJson (stands : Stands links v u) :
    Tracks (HasLinks links) (fun n => toJson n v) (fun n => toJson n u) Eq := by
  -- Members of objects and fields of records are written alike, once they have their names.
  have named {ms ms' : List (String × Value)}
      (each : List.Forall₂ (fun m m' => m.1 = m'.1 ∧
        Tracks (HasLinks links) (fun n => toJson n m.2) (fun n => toJson n m'.2) Eq) ms ms') :
      Tracks (HasLinks links)
        (fun n => do
          return Json.ofMembers (← ms.mapM fun m => do return (m.1, ← toJson n m.2)))
        (fun n => do
          return Json.ofMembers (← ms'.mapM fun m => do return (m.1, ← toJson n m.2))) Eq := by
    have single {m m' : String × Value} (same : m.1 = m'.1 ∧
        Tracks (HasLinks links) (fun n => toJson n m.2) (fun n => toJson n m'.2) Eq) :
        Tracks (HasLinks links)
          (fun n => (do return (m.1, ← toJson n m.2) : Evaluation (String × Json)))
          (fun n => do return (m'.1, ← toJson n m'.2)) Eq :=
      same.2.bind fun _ _ equal => tracks_pure (Prod.ext same.1 equal)
    refine (tracks_mapM (each.imp fun _ _ => single)).bind fun _ _ same => ?_
    rw [List.forall₂_eq_eq_eq] at same
    exact tracks_pure (congrArg Json.ofMembers same)
  induction stands with
  | link leads _ ih => exact tracks_link leads (fun n => by rw [toJson]) ih
  | array length _ ih =>
    refine Tracks.of_succ ?_
    simp only [toJson]
    refine (tracks_mapM (forall₂_of_zip length ih)).bind fun _ _ same => ?_
    rw [List.forall₂_eq_eq_eq] at same
    exact tracks_pure (congrArg Json.array same)
  | object length names _ ih =>
    refine Tracks.of_succ ?_
    simp only [toJson]
    exact named (forall₂_of_zip length fun p mem => ⟨names p mem, ih p mem⟩)
  | @record type vs us length _ ih =>
    refine Tracks.of_succ ?_
    simp only [toJson]
    have all := forall₂_of_zip (R := fun v u =>
      Tracks (HasLinks links) (fun n => toJson n v) (fun n => toJson n u) Eq) length ih
    exact named (forall₂_zip_names all _)
  | @flat v closed =>
    refine Tracks.of_succ ?_
    cases v with
    | array items => exact absurd closed.2 (Nat.not_succ_le_zero _)
    | object members => exact absurd closed.2 (Nat.not_succ_le_zero _)
    | record type values => exact absurd closed.2 (Nat.not_succ_le_zero _)
    | link id => exact absurd closed not_closedWithin_link
    | stream id => exact absurd closed not_closedWithin_stream
    | _ => simp only [toJson]; exact tracks_pure rfl

end Evaluation

namespace Query

variable {v w : Value} {h : Host}

/-- From this host both runs fail with the same failure, or both give values, and these are written
as the same document. -/
def SameAnswer {ε : Type} (h : Host) (r r' : (allowance : Nat) → Run Host ε Value) : Prop :=
  (∃ e g g', Reaches r h (.error e) g ∧ Reaches r' h (.error e) g') ∨
    ∃ a b g g' j k k', Reaches r h (.ok a) g ∧ Reaches r' h (.ok b) g' ∧
      Reaches (fun n => Evaluation.toJson n a) g (.ok j) k ∧
      Reaches (fun n => Evaluation.toJson n b) g' (.ok j) k'

/-- Two runs that track one run come to the same failure, or to values related to one value. -/
theorem agree_of_tracks {α β : Type} {r r' : Nat → Evaluation α} {t : Nat → Evaluation β}
    {R : α → β → Prop} {g g' : Host}
    (first : Tracks (HasLinks h.links) r t R) (second : Tracks (HasLinks h.links) r' t R)
    (links : HasLinks h.links g) (links' : HasLinks h.links g') :
    ∃ result result' k k', Reaches r g result k ∧ Reaches r' g' result' k' ∧
      HasLinks h.links k ∧ HasLinks h.links k' ∧
      ((∃ e, result = .error e ∧ result' = .error e ∧ Reaches t h (.error e) h) ∨
        ∃ a b c, result = .ok a ∧ result' = .ok b ∧ R a c ∧ R b c) := by
  obtain ⟨result, common, k, good, agree, n, outcomes⟩ := first g h links
  obtain ⟨result', common', k', good', agree', n', outcomes'⟩ := second g' h links'
  have both := outcomes (max n n') (Nat.le_max_left n n')
  have both' := outcomes' (max n n') (Nat.le_max_right n n')
  obtain rfl : common = common' := by
    have same := both.2.symm.trans both'.2
    cases same
    rfl
  refine ⟨result, result', k, k', ⟨_, both.1⟩, ⟨_, both'.1⟩, good, good', ?_⟩
  cases agree with
  | failure e => cases agree'; exact .inl ⟨e, rfl, rfl, _, both.2⟩
  | value related =>
    cases agree' with
    | value related' => exact .inr ⟨_, _, _, rfl, rfl, related, related'⟩

/-- Values that stand for one closed value are the same to a query: it fails alike on both of them,
or the results are written alike. -/
theorem same_of_stands {u : Value} (stands : Stands h.links v u) (stands' : Stands h.links w u)
    (f : Filter) : SameAnswer h (fun n => run n f v) (fun n => run n f w) := by
  obtain ⟨_, _, g, g', hv, hw, links, links', ⟨e, rfl, rfl, -⟩ | ⟨a, b, c, rfl, rfl, ha, hb⟩⟩ :=
    agree_of_tracks (Evaluation.tracks_run f stands) (Evaluation.tracks_run f stands') rfl rfl
  · exact .inl ⟨e, g, g', hv, hw⟩
  obtain ⟨_, _, k, k', ja, jb, -, -, ⟨e, -, -, fails⟩ | ⟨j, _, _, rfl, rfl, rfl, rfl⟩⟩ :=
    agree_of_tracks (Evaluation.tracks_toJson ha) (Evaluation.tracks_toJson hb) links links'
  · -- Closed values have documents.
    have steady : Steady fun n => Evaluation.toJson n c :=
      fun _ _ le => Evaluation.toJson_extendedBy le c
    obtain ⟨n, le, fails⟩ := fails.of_le steady (c.depth + 1)
    rcases Evaluation.quiet_toJson (h := h) ⟨ha.settled_and_isClosed.2, Nat.le_refl _⟩ le with
      ⟨j, written, -⟩ | ⟨_, _, none⟩
    · cases fails.symm.trans written
    · exact none.elim
  · exact .inr ⟨a, b, g, g', _, k, k', hv, hw, ja, jb⟩

end Query

/-- Putting links to values in the place of parts of a value, at any depth, makes no difference to a
query: it fails with the same failure, or its results are written as the same document. -/
theorem Query.link_transparency {h : Host} {v w : Value} (relinked : Relinked h.links v w)
    (maxDepth : Nat) (text : String) :
    SameAnswer h (fun n => apply n maxDepth text v) (fun n => apply n maxDepth text w) := by
  obtain ⟨u, stands, stands'⟩ := relinked.exists_stands
  cases parsed : Filter.parse maxDepth text with
  | error e =>
    have fails (v : Value) : Reaches (fun n => apply n maxDepth text v) h (.error (.parse e)) h :=
      ⟨0, congrArg (outcome · h) (apply_eq_throw parsed 0 v)⟩
    exact .inl ⟨_, h, h, fails v, fails w⟩
  | ok f =>
    simp only [SameAnswer, apply_eq_run parsed, reaches_mapError]
    rcases same_of_stands stands stands' f with
      ⟨e, g, g', hv, hw⟩ | ⟨a, b, g, g', j, k, k', hv, hw, written⟩
    · exact .inl ⟨_, g, g', ⟨_, hv, rfl⟩, ⟨_, hw, rfl⟩⟩
    · exact .inr ⟨a, b, g, g', j, k, k', ⟨_, hv, rfl⟩, ⟨_, hw, rfl⟩, written⟩

/-- A host with a link to a number, one to an object, and one to an array of both. -/
def chainedLinks : Host :=
  { Host.empty with
    links := #[⟨"number", .give (.integer 2), []⟩, ⟨"object", .give (.object [("a", .null)]), []⟩,
      ⟨"array", .give (.array [.link ⟨1⟩, .link ⟨0⟩]), []⟩] }

/-- A link at the root, to an array with a link in the place of its first item. -/
theorem Query.link_transparency_root :
    Relinked chainedLinks.links (.array [.object [("a", .null)], .link ⟨0⟩]) (.link ⟨2⟩) ∧
      SameAnswer chainedLinks
        (fun n => apply n 64 "[1], [0].a" (.array [.object [("a", .null)], .link ⟨0⟩]))
        (fun n => apply n 64 "[1], [0].a" (.link ⟨2⟩)) := by
  have number : Relinked chainedLinks.links (.link ⟨0⟩) (.link ⟨0⟩) :=
    .target ⟨"number", rfl⟩ ⟨"number", rfl⟩ (.flat ⟨rfl, Nat.le_refl 0⟩)
  have object : Relinked chainedLinks.links (.object [("a", .null)]) (.link ⟨1⟩) := by
    refine .wrap (.object rfl ?_ ?_) ⟨"object", rfl⟩
    · simp
    · simpa using Relinked.flat (v := .null) ⟨rfl, Nat.le_refl 0⟩
  have array : Relinked chainedLinks.links (.array [.object [("a", .null)], .link ⟨0⟩])
      (.link ⟨2⟩) := by
    refine .wrap (w := .array [.link ⟨1⟩, .link ⟨0⟩]) (.array rfl ?_) ⟨"array", rfl⟩
    simpa using ⟨object, number⟩
  exact ⟨array, link_transparency array 64 _⟩

end TreeQuery
