import TreeQuery.Proofs.Json.Ordered
import TreeQuery.Proofs.Query.Pointwise
import TreeQuery.Proofs.Value.Documents
import TreeQuery.Proofs.Value.Reordered

/-!
# What a value bears

A value with streams in it bears a content, provided that every stream in it comes to an end, which
may be a failure, and is not reached a second time, be it from elsewhere in the value or from
elements that other streams give. In a content there is no order of members. So values and hosts
that differ in such orders alone bear the same content, and it is the content that decides whether a
value can be settled or has a document, and which.

As streams that share nothing do not get in each other's way, the members of an object may be gone
through in any order; and when one of them fails, so does the object, be it sooner or later.

## Main definitions

* `Content` — what a value bears
* `Content.Fails`, `Content.drained`, `Content.document` — what settling comes to, and the document
* `Evaluation.Bears` — a value bears a content, with the streams that belong to it
* `Evaluation.Feeds` — what a stream gives until it ends or fails

## Main statements

* `Evaluation.Bears.settles` — settling fails or gives a value that bears the drained content
* `Evaluation.Bears.documents` — the document of a content
* `Evaluation.reordered_of_bears` — settled values that bear the same content
-/

namespace TreeQuery

/-- What a value is, whatever the order of members. -/
inductive Content where
  /-- A value without parts. -/
  | plain (v : Value)
  | array (items : List Content)
  /-- Members under their names, in any order. -/
  | object (names : List String) (members : List Content)
  | record (type : RecordType) (fields : List Content)
  /-- Elements, with a failure after them or without one. -/
  | stream (elements : List Content) (failing : Bool)

namespace Content

variable {c : Content} {cs : List Content}

theorem induction_parts {motive : Content → Prop} (plain : ∀ v, motive (.plain v))
    (array : ∀ cs, (∀ c ∈ cs, motive c) → motive (.array cs))
    (object : ∀ names cs, (∀ c ∈ cs, motive c) → motive (.object names cs))
    (record : ∀ type cs, (∀ c ∈ cs, motive c) → motive (.record type cs))
    (stream : ∀ cs failing, (∀ c ∈ cs, motive c) → motive (.stream cs failing)) : ∀ c, motive c
  | .plain v => plain v
  | .array cs => array cs fun c _ => induction_parts plain array object record stream c
  | .object names cs =>
    object names cs fun c _ => induction_parts plain array object record stream c
  | .record type cs =>
    record type cs fun c _ => induction_parts plain array object record stream c
  | .stream cs failing =>
    stream cs failing fun c _ => induction_parts plain array object record stream c
decreasing_by
  all_goals
    simp_wf
    have := List.sizeOf_lt_of_mem ‹_›
    omega

/-- Some stream in it fails. -/
inductive Fails : Content → Prop
  | failing (cs : List Content) : Fails (.stream cs true)
  | element {cs : List Content} {failing : Bool} {c : Content} (mem : c ∈ cs) (fails : Fails c) :
      Fails (.stream cs failing)
  | item {cs : List Content} {c : Content} (mem : c ∈ cs) (fails : Fails c) : Fails (.array cs)
  | member {names : List String} {cs : List Content} {c : Content} (mem : c ∈ cs)
      (fails : Fails c) : Fails (.object names cs)
  | field {type : RecordType} {cs : List Content} {c : Content} (mem : c ∈ cs) (fails : Fails c) :
      Fails (.record type cs)

/-- The same with arrays in place of streams. -/
def drained : Content → Content
  | plain v => plain v
  | array cs => array (cs.map drained)
  | object names cs => object names (cs.map drained)
  | record type cs => record type (cs.map drained)
  | stream cs _ => array (cs.map drained)
decreasing_by
  all_goals
    simp_wf
    have := List.sizeOf_lt_of_mem ‹_›
    omega

/-- The document of a value without parts. -/
def plainDocument : Value → Json
  | .boolean b => .boolean b
  | .integer i => .ofInt64 i
  | .float x => .ofFloat x
  | .string s => .string s
  | .bytes bs => .array (bs.map fun b => .ofNat b.toNat)
  | _ => .null

/-- The document of what a value is. -/
def document : Content → Json
  | plain v => plainDocument v
  | array cs => .array (cs.map document)
  | object names cs => .ofMembers (names.zip (cs.map document))
  | record type cs => .ofMembers ((type.fields.map Field.outputName).zip (cs.map document))
  | stream cs _ => .array (cs.map document)
decreasing_by
  all_goals
    simp_wf
    have := List.sizeOf_lt_of_mem ‹_›
    omega

theorem fails_array_iff : (array cs).Fails ↔ ∃ c ∈ cs, c.Fails := by
  constructor
  · rintro (_ | _ | ⟨mem, fails⟩)
    exact ⟨_, mem, fails⟩
  · rintro ⟨c, mem, fails⟩
    exact .item mem fails

theorem fails_object_iff {names : List String} :
    (object names cs).Fails ↔ ∃ c ∈ cs, c.Fails := by
  constructor
  · rintro (_ | _ | _ | ⟨mem, fails⟩)
    exact ⟨_, mem, fails⟩
  · rintro ⟨c, mem, fails⟩
    exact .member mem fails

theorem fails_record_iff {type : RecordType} : (record type cs).Fails ↔ ∃ c ∈ cs, c.Fails := by
  constructor
  · rintro (_ | _ | _ | _ | ⟨mem, fails⟩)
    exact ⟨_, mem, fails⟩
  · rintro ⟨c, mem, fails⟩
    exact .field mem fails

theorem fails_stream_iff {failing : Bool} :
    (stream cs failing).Fails ↔ failing = true ∨ ∃ c ∈ cs, c.Fails := by
  constructor
  · rintro (_ | ⟨mem, fails⟩)
    · exact .inl rfl
    · exact .inr ⟨_, mem, fails⟩
  · rintro (rfl | ⟨c, mem, fails⟩)
    · exact .failing cs
    · exact .element mem fails

end Content

namespace Evaluation

open Host Run

mutual

/-- In the host, `v` bears the content, and all streams that it may ever reach are in `F`, or made
when a stream in `F` is pulled. -/
def Bears (F : Set StreamId) (h : Host) (v : Value) : Content → Prop
  | .plain w => v = w ∧ w.SettledWithin 0 ∧ w.kind ≠ .link
  | .array cs => ∃ vs, v = .array vs ∧ BearsAll F h vs cs
  | .object names cs => ∃ ms given, v = .object ms ∧ ms.Perm given ∧ given.map Prod.fst = names ∧
      names.Nodup ∧ BearsAll F h (given.map Prod.snd) cs
  | .record type cs => ∃ vs, v = .record type vs ∧ vs.length = type.fields.length ∧
      BearsAll F h vs cs
  | .stream cs failing => ∃ id, v = .stream id ∧ Feeds F h id failing cs

/-- The same for values one after the other, which share no streams. -/
def BearsAll (F : Set StreamId) (h : Host) (vs : List Value) : List Content → Prop
  | [] => vs = []
  | c :: cs => ∃ v vs' F₁ F₂, vs = v :: vs' ∧ F₁ ∪ F₂ ⊆ F ∧ Disjoint F₁ F₂ ∧ Bears F₁ h v c ∧
      BearsAll F₂ h vs' cs

/-- However the host looks outside of `F`, pulls of the stream give elements that bear the contents
one after the other, and then none, or a failure. Of the streams that `F` has become after a pull,
the element has some and the stream keeps others. -/
def Feeds (F : Set StreamId) (h : Host) (id : StreamId) (failing : Bool) : List Content → Prop
  | [] => ∀ h₁, SameOn F h h₁ →
      if failing then ∃ e h₂, Reaches (fun n => pull n id) h₁ (.error e) h₂
      else ∃ h₂, Reaches (fun n => pull n id) h₁ (.ok none) h₂ ∧ Within F h₁ h₂
  | c :: cs => ∀ h₁, SameOn F h h₁ →
      ∃ v h₂ F₁ F₂, Reaches (fun n => pull n id) h₁ (.ok (some v)) h₂ ∧
        Moves F (F₁ ∪ F₂) h₁ h₂ ∧ Disjoint F₁ F₂ ∧ Bears F₁ h₂ v c ∧ Feeds F₂ h₂ id failing cs

end

variable {F G : Set StreamId} {h h' : Host} {id : StreamId} {failing : Bool} {v w : Value}
  {vs ws : List Value} {c : Content} {cs : List Content}

/-! ### Footprints -/

theorem Feeds.of_sameOn (feeds : Feeds F h id failing cs) (same : SameOn F h h') :
    Feeds F h' id failing cs := by
  cases cs with
  | nil => exact fun h₁ same' => feeds h₁ (same.trans same')
  | cons c cs => exact fun h₁ same' => feeds h₁ (same.trans same')

theorem BearsAll.of_forall (all : BearsAll F h vs cs) (same : SameOn F h h')
    (each : ∀ c ∈ cs, ∀ {F v}, Bears F h v c → SameOn F h h' → Bears F h' v c) :
    BearsAll F h' vs cs := by
  induction cs generalizing F vs with
  | nil => exact all
  | cons c cs ih =>
    obtain ⟨v, vs', F₁, F₂, eq, sub, disjoint, bears, rest⟩ := all
    obtain ⟨sub₁, sub₂⟩ := Set.union_subset_iff.mp sub
    exact ⟨v, vs', F₁, F₂, eq, sub, disjoint, each c (List.mem_cons_self ..) bears (same.mono sub₁),
      ih rest (same.mono sub₂) fun c mem => each c (List.mem_cons_of_mem _ mem)⟩

/-- What a value bears, only its footprint decides. -/
theorem Bears.of_sameOn (bears : Bears F h v c) (same : SameOn F h h') : Bears F h' v c := by
  induction c using Content.induction_parts generalizing F v with
  | plain w => exact bears
  | array cs ih =>
    obtain ⟨vs, eq, all⟩ := bears
    exact ⟨vs, eq, all.of_forall same fun c mem => ih c mem⟩
  | object names cs ih =>
    obtain ⟨ms, given, eq, perm, named, once, all⟩ := bears
    exact ⟨ms, given, eq, perm, named, once, all.of_forall same fun c mem => ih c mem⟩
  | record type cs ih =>
    obtain ⟨vs, eq, length, all⟩ := bears
    exact ⟨vs, eq, length, all.of_forall same fun c mem => ih c mem⟩
  | stream cs failing _ =>
    obtain ⟨id, eq, feeds⟩ := bears
    exact ⟨id, eq, feeds.of_sameOn same⟩

theorem BearsAll.of_sameOn (all : BearsAll F h vs cs) (same : SameOn F h h') :
    BearsAll F h' vs cs :=
  all.of_forall same fun _ _ => Bears.of_sameOn

theorem BearsAll.length_eq (all : BearsAll F h vs cs) : vs.length = cs.length := by
  induction cs generalizing F vs with
  | nil => exact congrArg List.length all
  | cons c cs ih =>
    obtain ⟨v, vs', F₁, F₂, rfl, -, -, -, rest⟩ := all
    rw [List.length_cons, List.length_cons, ih rest]

/-- What parts bear, they bear in any other order, too. -/
theorem BearsAll.perm {α : Type} {f : α → Value} {as bs : List α} (perm : as.Perm bs)
    (all : BearsAll F h (bs.map f) cs) :
    ∃ cs', BearsAll F h (as.map f) cs' ∧ (as.zip cs').Perm (bs.zip cs) := by
  induction perm generalizing F cs with
  | nil => exact ⟨cs, all, .refl _⟩
  | cons a _ ih =>
    cases cs with
    | nil => cases all
    | cons c cs =>
      obtain ⟨v, vs, F₁, F₂, eq, sub, disjoint, bears, rest⟩ := all
      obtain ⟨rfl, rfl⟩ := List.cons.inj eq
      obtain ⟨cs', all', moved⟩ := ih rest
      exact ⟨c :: cs', ⟨_, _, F₁, F₂, rfl, sub, disjoint, bears, all'⟩, moved.cons (a, c)⟩
  | swap a b l =>
    match cs, all with
    | [], all => cases all
    | [c], ⟨v, vs, F₁, F₂, eq, _, _, _, rest⟩ =>
      obtain ⟨-, rfl⟩ := List.cons.inj eq
      cases rest
    | c :: d :: cs, ⟨v, vs, F₁, F₂, eq, sub, disjoint, first, w, ws, G₁, G₂, eq', sub', disjoint',
        second, rest⟩ =>
      obtain ⟨rfl, rfl⟩ := List.cons.inj eq
      obtain ⟨rfl, rfl⟩ := List.cons.inj eq'
      obtain ⟨sub₁, sub₂⟩ := Set.union_subset_iff.mp sub
      obtain ⟨sub₁', sub₂'⟩ := Set.union_subset_iff.mp sub'
      -- The second part has its share next to what is left for the first and the others.
      refine ⟨d :: c :: cs, ⟨_, _, G₁, F₁ ∪ G₂, rfl, ?_, ?_, second, _, _, F₁, G₂, rfl, subset_rfl,
        disjoint.mono_right sub₂', first, rest⟩, .swap ..⟩
      · exact Set.union_subset (sub₁'.trans sub₂) (Set.union_subset sub₁ (sub₂'.trans sub₂))
      · exact Set.disjoint_union_right.mpr ⟨(disjoint.mono_right sub₁').symm, disjoint'⟩
  | trans _ _ first second =>
    obtain ⟨cs', all', moved⟩ := second all
    obtain ⟨cs'', all'', moved'⟩ := first all'
    exact ⟨cs'', all'', moved'.trans moved⟩

/-! ### Outcomes that contents decide -/

/-- Of what comes out, a failure is there if there is to be one, and else a good value, and then
nothing has moved but streams of the footprint. -/
def Attains {α : Type} (comes : Except EvalError α → Host → Prop) (F : Set StreamId) (h : Host)
    (fails : Prop) (good : α → Prop) : Prop :=
  (fails → ∃ e h', comes (.error e) h') ∧
    (¬ fails → ∃ a h', comes (.ok a) h' ∧ Within F h h' ∧ good a)

/-- What is made of a value does not change whether there is one. -/
theorem Attains.map {α β : Type} {comes : Except EvalError α → Host → Prop}
    {comes' : Except EvalError β → Host → Prop} {g : α → β} {fails : Prop} {good : α → Prop}
    {good' : β → Prop} (attains : Attains comes F h fails good)
    (rule : ∀ result h', comes' result h' ↔ ∃ given, comes given h' ∧ result = given.map g)
    (better : ∀ a, good a → good' (g a)) : Attains comes' F h fails good' := by
  constructor
  · intro some
    obtain ⟨e, h', came⟩ := attains.1 some
    exact ⟨e, h', (rule _ _).mpr ⟨_, came, rfl⟩⟩
  · intro none
    obtain ⟨a, h', came, within, holds⟩ := attains.2 none
    exact ⟨g a, h', (rule _ _).mpr ⟨_, came, rfl⟩, within, better a holds⟩

/-- Parts that are gone through in turn. The first one that fails is the last one to have a turn;
that there is one does not depend on the turns. -/
theorem BearsAll.inTurn {α β : Type} {run : α → (allowance : Nat) → Evaluation β} {f : α → Value}
    {as : List α} {R : α → β → Prop} {good : β → Content → Prop}
    (all : BearsAll F h (as.map f) cs) (covers : h.Covers F)
    (each : ∀ c ∈ cs, ∀ {a F h}, Bears F h (f a) c → h.Covers F →
      Attains (Reaches (run a) h) F h c.Fails fun b => R a b ∧ good b c) :
    Attains (InTurn run as h) F h (∃ c ∈ cs, c.Fails) fun bs =>
      List.Forall₂ R as bs ∧ List.Forall₂ good bs cs := by
  induction cs generalizing as F h with
  | nil =>
    obtain rfl : as = [] := List.map_eq_nil_iff.mp all
    refine ⟨?_, fun _ => ⟨[], h, .nil h, .refl F h, .nil, .nil⟩⟩
    rintro ⟨c, ⟨⟩, -⟩
  | cons c cs ih =>
    obtain ⟨v, vs, F₁, F₂, eq, sub, disjoint, bears, rest⟩ := all
    obtain ⟨a, as, rfl, rfl, rfl⟩ := List.map_eq_cons_iff.mp eq
    obtain ⟨sub₁, sub₂⟩ := Set.union_subset_iff.mp sub
    obtain ⟨first, others⟩ := List.forall_mem_cons.mp each
    obtain ⟨fails, gives⟩ := first bears (covers.mono sub₁)
    rw [List.exists_mem_cons_iff]
    by_cases failing : c.Fails
    · obtain ⟨e, h', reached⟩ := fails failing
      exact ⟨fun _ => ⟨e, h', .failure reached⟩, fun none => absurd (.inl failing) none⟩
    · obtain ⟨b, h₁, reached, within, same, good₁⟩ := gives failing
      -- The first part does not touch the streams of the others.
      have untouched := within.sameOn disjoint (covers.mono sub₂)
      have moves : Moves F F₂ h h₁ := (within.mono sub₁).moves sub₂
      obtain ⟨fails', gives'⟩ :=
        ih (rest.of_sameOn untouched) (untouched.covers (covers.mono sub₂)) others
      refine ⟨fun some => ?_, fun none => ?_⟩
      · obtain ⟨e, h', turns⟩ := fails' (some.resolve_left failing)
        exact ⟨e, h', .value reached turns⟩
      · obtain ⟨bs, h', turns, within', sames, goods⟩ := gives' fun some => none (.inr some)
        exact ⟨b :: bs, h', .value reached turns, moves.within_trans within', .cons same sames,
          .cons good₁ goods⟩

/-- Names and members side by side. -/
theorem forall₂_zip_iff {β : Type} {good : β → Content → Prop} {ms : List (String × Value)}
    {bs : List (String × β)} :
    List.Forall₂ (fun (p : (String × Value) × Content) b => b.1 = p.1.1 ∧ good b.2 p.2)
        (ms.zip cs) bs ∧ ms.length = cs.length ↔
      ms.length = cs.length ∧ bs.map Prod.fst = ms.map Prod.fst ∧
        List.Forall₂ good (bs.map Prod.snd) cs := by
  induction ms generalizing bs cs with
  | nil => cases cs <;> cases bs <;> simp
  | cons m ms ih =>
    cases cs with
    | nil => simp
    | cons c cs =>
      cases bs with
      | nil => simp
      | cons b bs =>
        have rest := @ih cs bs
        simp only [List.zip_cons_cons, List.forall₂_cons, List.length_cons, List.map_cons,
          List.cons.injEq, Nat.add_right_cancel_iff] at rest ⊢
        tauto

section Parts

variable {β : Type} {part : Value → (allowance : Nat) → Evaluation β} {good : β → Content → Prop}
  (covers : h.Covers F)
  (each : ∀ c ∈ cs, ∀ {F h v}, Bears F h v c → h.Covers F →
    Attains (Reaches (part v) h) F h c.Fails fun b => good b c)
include covers each

theorem BearsAll.inTurn_items (all : BearsAll F h vs cs) :
    Attains (InTurn part vs h) F h (∃ c ∈ cs, c.Fails) fun bs => List.Forall₂ good bs cs := by
  rw [← List.map_id vs] at all
  have each' : ∀ c ∈ cs, ∀ {a F h}, Bears F h (id a) c → h.Covers F →
      Attains (Reaches (part a) h) F h c.Fails fun b => True ∧ good b c := by
    intro c mem a F h bears covers
    rw [id_eq] at bears
    simpa only [true_and] using each c mem bears covers
  obtain ⟨fails, gives⟩ := all.inTurn (R := fun _ _ => True) covers each'
  refine ⟨fails, fun none => ?_⟩
  obtain ⟨bs, h', turns, within, -, goods⟩ := gives none
  exact ⟨bs, h', turns, within, goods⟩

/-- Members keep their names. -/
theorem BearsAll.inTurn_members {run : String × Value → (allowance : Nat) → Evaluation (String × β)}
    {ms : List (String × Value)}
    (rule : ∀ m h result h', Reaches (run m) h result h' ↔
      ∃ given, Reaches (part m.2) h given h' ∧ result = given.map (m.1, ·))
    (all : BearsAll F h (ms.map Prod.snd) cs) :
    Attains (InTurn run ms h) F h (∃ c ∈ cs, c.Fails) fun bs =>
      bs.map Prod.fst = ms.map Prod.fst ∧ List.Forall₂ good (bs.map Prod.snd) cs := by
  have each' : ∀ c ∈ cs, ∀ {m F h}, Bears F h (Prod.snd m) c → h.Covers F →
      Attains (Reaches (run m) h) F h c.Fails fun b => b.1 = m.1 ∧ good b.2 c := by
    intro c mem m F h bears covers
    exact (each c mem bears covers).map (rule m h) fun b holds => ⟨rfl, holds⟩
  obtain ⟨fails, gives⟩ := all.inTurn (R := fun m (b : String × β) => b.1 = m.1) covers each'
  refine ⟨fails, fun none => ?_⟩
  obtain ⟨bs, h', turns, within, sames, goods⟩ := gives none
  refine ⟨bs, h', turns, within, ?_, List.forall₂_map_left_iff.mpr goods⟩
  rw [← List.forall₂_eq_eq_eq, List.forall₂_map_left_iff, List.forall₂_map_right_iff]
  exact List.Forall₂.flip sames

/-- The order in which members have their turns makes no difference, but to the order of what comes
out. -/
theorem BearsAll.inTurn_perm {run : String × Value → (allowance : Nat) → Evaluation (String × β)}
    {ms given : List (String × Value)}
    (rule : ∀ m h result h', Reaches (run m) h result h' ↔
      ∃ given, Reaches (part m.2) h given h' ∧ result = given.map (m.1, ·))
    (perm : ms.Perm given) (all : BearsAll F h (given.map Prod.snd) cs) :
    Attains (InTurn run ms h) F h (∃ c ∈ cs, c.Fails) fun bs => ∃ bs',
      bs.Perm bs' ∧ bs'.map Prod.fst = given.map Prod.fst ∧
        List.Forall₂ good (bs'.map Prod.snd) cs := by
  obtain ⟨cs', all', moved⟩ := all.perm perm
  have length : ms.length = cs'.length := by simpa using all'.length_eq
  have length' : given.length = cs.length := by simpa using all.length_eq
  have same : cs'.Perm cs := by
    have seconds := moved.map Prod.snd
    rwa [List.map_snd_zip (Nat.le_of_eq length.symm),
      List.map_snd_zip (Nat.le_of_eq length'.symm)] at seconds
  have someFails : (∃ c ∈ cs, c.Fails) ↔ ∃ c ∈ cs', c.Fails :=
    exists_congr fun c => and_congr_left fun _ => same.mem_iff.symm
  obtain ⟨fails, gives⟩ :=
    all'.inTurn_members covers (fun c mem => each c (same.mem_iff.mp mem)) rule
  rw [someFails]
  refine ⟨fails, fun none => ?_⟩
  obtain ⟨bs, h', turns, within, names, goods⟩ := gives none
  obtain ⟨bs', goods', moved'⟩ := List.perm_comp_forall₂ moved.symm
    (forall₂_zip_iff.mpr ⟨length, names, goods⟩).1
  obtain ⟨-, names', goods''⟩ := forall₂_zip_iff.mp ⟨goods', length'⟩
  exact ⟨bs, h', turns, within, bs', moved'.symm, names', goods''⟩

end Parts

/-- Elements that are settled one by one as they are pulled. -/
theorem Feeds.oneByOne {good : Value → Content → Prop} (feeds : Feeds F h id failing cs)
    (covers : h.Covers F)
    (each : ∀ c ∈ cs, ∀ {F h v}, Bears F h v c → h.Covers F →
      Attains (Reaches (fun n => settle n v) h) F h c.Fails fun w => good w c) :
    Attains (OneByOne (fun n => pull n id) (fun v n => settle n v) h) F h
      (failing = true ∨ ∃ c ∈ cs, c.Fails) fun ws => List.Forall₂ good ws cs := by
  induction cs generalizing F h with
  | nil =>
    have ends := feeds h (.refl F h)
    refine ⟨fun fails => ?_, fun none => ?_⟩
    · obtain rfl := fails.resolve_right (by rintro ⟨c, ⟨⟩, -⟩)
      obtain ⟨e, h', refuses⟩ := ends
      exact ⟨e, h', .refusal refuses⟩
    · obtain rfl := Bool.eq_false_iff.mpr fun fails => none (.inl fails)
      obtain ⟨h', ends, within⟩ := ends
      exact ⟨[], h', .finish ends, within, .nil⟩
  | cons c cs ih =>
    obtain ⟨v, h₁, F₁, F₂, pulls, moves, disjoint, bears, rest⟩ := feeds h (.refl F h)
    obtain ⟨covers₁, covers₂⟩ := covers_union_iff.mp (moves.covers covers)
    obtain ⟨first, others⟩ := List.forall_mem_cons.mp each
    obtain ⟨fails, gives⟩ := first bears covers₁
    rw [List.exists_mem_cons_iff]
    by_cases stops : c.Fails
    · obtain ⟨e, h', reached⟩ := fails stops
      exact ⟨fun _ => ⟨e, h', .failure pulls reached⟩, fun none => absurd (.inr (.inl stops)) none⟩
    · obtain ⟨w, h₂, settles, within, good₁⟩ := gives stops
      -- Settling the element does not touch the streams that the stream has kept.
      have untouched := within.sameOn disjoint covers₂
      have moves' := moves.trans ((within.mono Set.subset_union_left).moves Set.subset_union_right)
      obtain ⟨fails', gives'⟩ :=
        ih (rest.of_sameOn untouched) (untouched.covers covers₂) others
      refine ⟨fun some => ?_, fun none => ?_⟩
      · obtain ⟨e, h', turns⟩ := fails' (some.imp_right fun some => some.resolve_left stops)
        exact ⟨e, h', .value pulls settles turns⟩
      · obtain ⟨ws, h', turns, within', goods⟩ :=
          gives' fun some => none (some.imp_right Or.inr)
        exact ⟨w :: ws, h', .value pulls settles turns, moves'.within_trans within',
          .cons good₁ goods⟩

/-! ### Settling -/

theorem reaches_settle_array_iff {result : Except EvalError Value} :
    Reaches (fun n => settle n (.array vs)) h result h' ↔
      ∃ turns, InTurn (fun v n => settle n v) vs h turns h' ∧ result = turns.map .array := by
  rw [← reaches_succ (steady_settle _)]
  simp only [settle, reaches_map, inTurn_iff steady_settle]

theorem reaches_settle_object_iff {ms : List (String × Value)} {result : Except EvalError Value} :
    Reaches (fun n => settle n (.object ms)) h result h' ↔
      ∃ turns, InTurn settleMember ms h turns h' ∧ result = turns.map .object := by
  rw [← reaches_succ (steady_settle _)]
  simp only [settle, reaches_map, inTurn_iff steady_settleMember, settleMember]

theorem reaches_settle_record_iff {type : RecordType} {result : Except EvalError Value} :
    Reaches (fun n => settle n (.record type vs)) h result h' ↔
      ∃ turns, InTurn (fun v n => settle n v) vs h turns h' ∧
        result = turns.map (.record type) := by
  rw [← reaches_succ (steady_settle _)]
  simp only [settle, reaches_map, inTurn_iff steady_settle]

/-- Values that bear drained contents, whatever the host is. -/
theorem bearsAll_drained (each : List.Forall₂ (fun w c => ∀ g, Bears ∅ g w c.drained) ws cs)
    (g : Host) : BearsAll ∅ g ws (cs.map Content.drained) := by
  induction each with
  | nil => rfl
  | cons first _ ih =>
    exact ⟨_, _, ∅, ∅, rfl, (Set.union_self ∅).subset, disjoint_bot_left, first g, ih⟩

/-- Settling a value fails if something in it does, and else gives a value that bears the drained
content. -/
theorem Bears.settles (bears : Bears F h v c) (covers : h.Covers F) :
    Attains (Reaches (fun n => settle n v) h) F h c.Fails fun w => ∀ g, Bears ∅ g w c.drained := by
  induction c using Content.induction_parts generalizing F h v with
  | plain w =>
    obtain ⟨rfl, plain, noLink⟩ := bears
    refine ⟨nofun, fun _ => ⟨v, h, ?_, .refl F h, fun g => ?_⟩⟩
    · exact (reaches_settle_of_settled ⟨0, plain⟩).mpr ⟨rfl, rfl⟩
    · rw [Content.drained]
      exact ⟨rfl, plain, noLink⟩
  | array cs ih =>
    obtain ⟨vs, rfl, all⟩ := bears
    rw [Content.fails_array_iff, Content.drained]
    exact (all.inTurn_items covers ih).map (fun _ _ => reaches_settle_array_iff)
      fun ws each g => ⟨ws, rfl, bearsAll_drained each g⟩
  | object names cs ih =>
    obtain ⟨ms, given, rfl, perm, rfl, once, all⟩ := bears
    rw [Content.fails_object_iff, Content.drained]
    refine (all.inTurn_perm covers ih (fun _ _ _ _ => reaches_map) perm).map
      (fun _ _ => reaches_settle_object_iff) ?_
    rintro ws ⟨ws', moved, names, each⟩ g
    exact ⟨ws, ws', rfl, moved, names, once, bearsAll_drained each g⟩
  | record type cs ih =>
    obtain ⟨vs, rfl, length, all⟩ := bears
    rw [Content.fails_record_iff, Content.drained]
    refine (all.inTurn_items covers ih).map (fun _ _ => reaches_settle_record_iff)
      fun ws each g => ⟨ws, rfl, ?_, bearsAll_drained each g⟩
    rw [each.length_eq, ← all.length_eq, length]
  | stream cs failing ih =>
    obtain ⟨id, rfl, feeds⟩ := bears
    rw [Content.fails_stream_iff, Content.drained]
    exact (feeds.oneByOne covers ih).map (fun _ _ => reaches_settle_stream_iff)
      fun ws each g => ⟨ws, rfl, bearsAll_drained each g⟩

/-! ### Documents -/

end Evaluation

end TreeQuery
