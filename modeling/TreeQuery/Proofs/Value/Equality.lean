import TreeQuery.Proofs.Evaluation.Draining
import TreeQuery.Proofs.Decimal.Binary64
import TreeQuery.Proofs.Json.Ordered

/-!
# Equality of values

Values are equal if they have the same shape and equal parts. This is symmetric and transitive, as
long as no name stands twice in an object, which no object does that was made member by member. It
is not reflexive: a float that is no number is not equal to itself, and neither is a value that
holds one. What links and streams stand for is not compared, so that nothing in there matters.

## Main definitions

* `Binary64.standing` — what doubles are compared by
* `Value.Occurs` — the values in a value, itself among them
* `Value.NamesOnce` — no name stands twice in an object

## Main statements

* `Binary64.beq_iff` — when doubles are equal
* `Value.same_object_iff` — objects are equal if each name finds equal members in them, or none
* `Value.same_symm`, `Value.same_trans`, `Value.same_self_iff` — the laws of equality
* `Value.equality_laws` — the laws, and when values of each shape with parts are equal
-/

namespace TreeQuery

/-! ### Doubles -/

namespace Binary64

open Float.Model (UnpackedFloat)

variable {x y z : Float} {u w : UnpackedFloat}

/-- What doubles are compared by: the sign of a zero does not count, and what is no number is not
compared at all. -/
def standing : UnpackedFloat → Option UnpackedFloat
  | .notANumber => none
  | .zero _ => some (.zero .positive)
  | u => some u

theorem beq_finite_iff {s t : UnpackedFloat.Sign} {m n : Nat} {d e : Int} {pos : 0 < m}
    {pos' : 0 < n} : (UnpackedFloat.finite s m d pos).beq (.finite t n e pos') = true ↔
      UnpackedFloat.finite s m d pos = .finite t n e pos' := by
  cases s <;> cases t <;>
    simp [UnpackedFloat.beq, UnpackedFloat.compare, Ordering.then_eq_eq, and_comm]

theorem unpacked_beq_iff :
    u.beq w = true ↔ ∃ c, standing u = some c ∧ standing w = some c := by
  cases u with
  | notANumber => simp [standing, UnpackedFloat.beq, UnpackedFloat.compare]
  | zero s =>
    cases w with
    | infinity t => cases t <;> simp [standing, UnpackedFloat.beq, UnpackedFloat.compare]
    | finite t n e pos' => cases t <;> simp [standing, UnpackedFloat.beq, UnpackedFloat.compare]
    | _ => simp [standing, UnpackedFloat.beq, UnpackedFloat.compare]
  | infinity s =>
    cases w with
    | infinity t => cases s <;> cases t <;> simp [standing] <;> decide
    | _ => cases s <;> simp [standing, UnpackedFloat.beq, UnpackedFloat.compare]
  | finite s m d pos =>
    cases w with
    | infinity t =>
      cases s <;> cases t <;> simp [standing, UnpackedFloat.beq, UnpackedFloat.compare]
    | finite t n e pos' =>
      rw [beq_finite_iff]
      simp [standing, eq_comm]
    | _ => cases s <;> simp [standing, UnpackedFloat.beq, UnpackedFloat.compare]

/-- Doubles are equal if both of them are numbers that compare by the same. -/
theorem beq_iff : (x == y) = true ↔
    ∃ c, standing (parts x) = some c ∧ standing (parts y) = some c :=
  unpacked_beq_iff

theorem beq_symm (x y : Float) : (x == y) = (y == x) := by
  rw [Bool.eq_iff_iff, beq_iff, beq_iff]
  exact exists_congr fun c => and_comm

theorem beq_trans (first : (x == y) = true) (second : (y == z) = true) : (x == z) = true := by
  obtain ⟨c, left, middle⟩ := beq_iff.mp first
  obtain ⟨c', middle', right⟩ := beq_iff.mp second
  cases middle.symm.trans middle'
  exact beq_iff.mpr ⟨c, left, right⟩

/-- Numbers are equal to themselves, and nothing else is. -/
theorem beq_self_iff : (x == x) = true ↔ x.isNaN = false := by
  rw [beq_iff, isNaN_eq]
  cases parts x <;> simp [standing, UnpackedFloat.isNaN]

end Binary64

/-! ### Members -/

section Members

variable {α : Type} {ms ns : List (String × α)} {name : String} {a : α}

/-- If no name stands twice, a name finds the member that stands beside it. -/
theorem lookup_eq_some_iff_mem (names : (ms.map Prod.fst).Nodup) :
    ms.lookup name = some a ↔ (name, a) ∈ ms := by
  refine ⟨mem_of_lookup, fun mem => ?_⟩
  induction ms with
  | nil => cases mem
  | cons first rest ih =>
    obtain ⟨new, names⟩ := List.nodup_cons.mp names
    rcases List.mem_cons.mp mem with rfl | mem
    · exact List.lookup_cons_self
    · have other : name ≠ first.1 := by
        rintro rfl
        exact new (List.mem_map.mpr ⟨_, mem, rfl⟩)
      rw [List.lookup_cons, beq_eq_false_iff_ne.mpr other]
      exact ih names mem

theorem lookup_eq_none_iff_notMem : ms.lookup name = none ↔ name ∉ ms.map Prod.fst := by
  rw [List.lookup_eq_none_iff, List.mem_map]
  constructor
  · rintro absent ⟨m, mem, rfl⟩
    exact absurd (beq_self_eq_true m.1) (by simpa using absent m mem)
  · intro absent m mem
    exact bne_iff_ne.mpr fun same => absent ⟨m, mem, same.symm⟩

/-- Members that are found alike are the same in some order. -/
theorem perm_of_lookup (names : (ms.map Prod.fst).Nodup) (names' : (ns.map Prod.fst).Nodup)
    (alike : ∀ name, ms.lookup name = ns.lookup name) : ms.Perm ns := by
  refine (List.perm_ext_iff_of_nodup names.of_map names'.of_map).mpr fun m => ?_
  rw [← lookup_eq_some_iff_mem names, ← lookup_eq_some_iff_mem names', alike]

end Members

namespace Value

variable {u v w : Value} {vs ws : List Value} {ms ns : List (String × Value)} {x : Float}

/-! ### Values in values -/

/-- The value `w` occurs in another one: it is that value, or it occurs in an item, a member or a
field of it. What links and streams stand for does not occur in them. -/
inductive Occurs (w : Value) : Value → Prop
  | self : Occurs w w
  | item {items : List Value} {v : Value} (mem : v ∈ items) (occurs : Occurs w v) :
      Occurs w (.array items)
  | member {members : List (String × Value)} {m : String × Value} (mem : m ∈ members)
      (occurs : Occurs w m.2) : Occurs w (.object members)
  | field {type : RecordType} {values : List Value} {v : Value} (mem : v ∈ values)
      (occurs : Occurs w v) : Occurs w (.record type values)

/-- No name stands twice in an object, be it the value itself or an object in it. -/
def NamesOnce (v : Value) : Prop :=
  ∀ members, Occurs (.object members) v → (members.map Prod.fst).Nodup

theorem NamesOnce.item (once : NamesOnce (.array vs)) (mem : v ∈ vs) : v.NamesOnce :=
  fun members occurs => once members (.item mem occurs)

theorem NamesOnce.member {m : String × Value} (once : NamesOnce (.object ms)) (mem : m ∈ ms) :
    m.2.NamesOnce :=
  fun members occurs => once members (.member mem occurs)

theorem NamesOnce.field {type : RecordType} (once : NamesOnce (.record type vs)) (mem : v ∈ vs) :
    v.NamesOnce :=
  fun members occurs => once members (.field mem occurs)

theorem NamesOnce.names (once : NamesOnce (.object ms)) : (ms.map Prod.fst).Nodup :=
  once ms .self

/-- Objects that were made member by member have every name once. -/
theorem namesOnce_ofMembers (each : ∀ m ∈ ms, m.2.NamesOnce) : (ofMembers ms).NamesOnce := by
  intro members occurs
  cases occurs with
  | self => exact nodup_names_collectMembers ms
  | member mem occurs => exact each _ (mem_of_mem_collectMembers mem) members occurs

/-! ### Parts one by one -/

theorem sameItems_iff :
    sameItems vs ws = true ↔ List.Forall₂ (fun v w => v.same w = true) vs ws := by
  induction vs generalizing ws with
  | nil => cases ws <;> simp [sameItems]
  | cons v vs ih => cases ws <;> simp [sameItems, ih]

theorem sameMembers_iff :
    sameMembers ms ns = true ↔ ∀ m ∈ ms, ∃ w, ns.lookup m.1 = some w ∧ m.2.same w = true := by
  induction ms with
  | nil => simp [sameMembers]
  | cons m ms ih =>
    rw [sameMembers, Bool.and_eq_true, ih, List.forall_mem_cons]
    refine and_congr_left fun _ => ?_
    cases ns.lookup m.1 <;> simp

theorem same_array_iff : (array vs).same w = true ↔
    ∃ ws, w = .array ws ∧ List.Forall₂ (fun v w => v.same w = true) vs ws := by
  cases w with
  | array ws => simp [same, sameItems_iff]
  | _ => exact ⟨nofun, fun ⟨_, eq, _⟩ => nomatch eq⟩

theorem same_object_iff_exists : (object ms).same w = true ↔ ∃ ns, w = .object ns ∧
    ms.length = ns.length ∧ ∀ m ∈ ms, ∃ w, ns.lookup m.1 = some w ∧ m.2.same w = true := by
  cases w with
  | object ns => simp [same, sameMembers_iff]
  | _ => exact ⟨nofun, fun ⟨_, eq, _⟩ => nomatch eq⟩

theorem same_record_iff_exists {type : RecordType} : (record type vs).same w = true ↔
    ∃ ws, w = .record type ws ∧ List.Forall₂ (fun v w => v.same w = true) vs ws := by
  cases w with
  | record type' ws =>
    rw [same, Bool.and_eq_true, beq_iff_eq, sameItems_iff]
    constructor
    · rintro ⟨rfl, each⟩
      exact ⟨ws, rfl, each⟩
    · rintro ⟨_, eq, each⟩
      cases eq
      exact ⟨rfl, each⟩
  | _ => exact ⟨nofun, fun ⟨_, eq, _⟩ => nomatch eq⟩

/-- Records are equal if their types have the same name and the same fields, and if their values
are equal one by one. The table of a type follows from its fields. -/
theorem same_record_iff {s t : RecordType} : (record s vs).same (.record t ws) = true ↔
    s.name = t.name ∧ s.fields = t.fields ∧ List.Forall₂ (fun v w => v.same w = true) vs ws := by
  obtain ⟨name, fields⟩ := s
  obtain ⟨name', fields'⟩ := t
  rw [same, Bool.and_eq_true, beq_iff_eq, sameItems_iff, RecordType.mk.injEq, and_assoc]

/-- Objects are equal if each name finds equal members in them, or none in either. -/
theorem same_object_iff (names : (ms.map Prod.fst).Nodup) (names' : (ns.map Prod.fst).Nodup) :
    (object ms).same (.object ns) = true ↔
      ∀ name, Option.Rel (fun v w => v.same w = true) (ms.lookup name) (ns.lookup name) := by
  rw [same, Bool.and_eq_true, beq_iff_eq, sameMembers_iff]
  constructor
  · rintro ⟨length, each⟩ name
    cases found : ms.lookup name with
    | some v =>
      obtain ⟨w, found', same⟩ := each _ (mem_of_lookup found)
      rw [found']
      exact .some same
    | none =>
      -- All names of the first object are names of the second, which has no more of them.
      have sub : ms.map Prod.fst ⊆ ns.map Prod.fst := by
        intro name mem
        obtain ⟨m, mem', rfl⟩ := List.mem_map.mp mem
        obtain ⟨w, found', -⟩ := each m mem'
        exact List.mem_map.mpr ⟨_, mem_of_lookup found', rfl⟩
      have perm : (ms.map Prod.fst).Perm (ns.map Prod.fst) :=
        (names.subperm sub).perm_of_length_le (by simp [length])
      have absent : ns.lookup name = none := by
        rw [lookup_eq_none_iff_notMem, ← perm.mem_iff]
        exact lookup_eq_none_iff_notMem.mp found
      rw [absent]
      exact .none
  · intro each
    have mem_iff (name : String) : name ∈ ms.map Prod.fst ↔ name ∈ ns.map Prod.fst := by
      rw [← not_iff_not, ← lookup_eq_none_iff_notMem, ← lookup_eq_none_iff_notMem]
      have related := each name
      generalize ms.lookup name = found, ns.lookup name = found' at related
      cases related <;> simp
    have perm := (List.perm_ext_iff_of_nodup names names').mpr mem_iff
    refine ⟨by simpa using perm.length_eq, fun m mem => ?_⟩
    have related := each m.1
    rw [(lookup_eq_some_iff_mem names).mpr mem] at related
    generalize ns.lookup m.1 = found' at related
    cases related with
    | some same => exact ⟨_, rfl, same⟩

/-- The order of members does not matter, be it in the first of two objects or in the second. -/
theorem same_object_of_perm (perm : ms.Perm ns) (names : (ms.map Prod.fst).Nodup) (v : Value) :
    (object ms).same v = (object ns).same v ∧ v.same (.object ms) = v.same (.object ns) := by
  cases v with
  | object ks =>
    have found (name : String) : ms.lookup name = ns.lookup name := lookup_eq_of_perm perm names
    constructor
    · rw [Bool.eq_iff_iff]
      simp only [same, Bool.and_eq_true, sameMembers_iff, perm.mem_iff, perm.length_eq]
    · rw [Bool.eq_iff_iff]
      simp only [same, Bool.and_eq_true, sameMembers_iff, found, perm.length_eq]
  | _ => exact ⟨rfl, rfl⟩

/-! ### Laws -/

theorem forall₂_swap {α β : Type} {R : α → β → Prop} {S : β → α → Prop} {as : List α}
    {bs : List β} (each : List.Forall₂ R as bs)
    (swap : ∀ a ∈ as, ∀ b ∈ bs, R a b → S b a) : List.Forall₂ S bs as := by
  induction each with
  | nil => exact .nil
  | cons first _ ih =>
    refine .cons (swap _ (List.mem_cons_self ..) _ (List.mem_cons_self ..) first) (ih ?_)
    exact fun a mem b mem' =>
      swap a (List.mem_cons_of_mem _ mem) b (List.mem_cons_of_mem _ mem')

theorem forall₂_trans {α : Type} {R : α → α → Prop} {as bs cs : List α}
    (each : List.Forall₂ R as bs) (each' : List.Forall₂ R bs cs)
    (trans : ∀ a ∈ as, ∀ b c, R a b → R b c → R a c) : List.Forall₂ R as cs := by
  induction each generalizing cs with
  | nil => exact each'
  | cons first _ ih =>
    cases each' with
    | cons first' rest' =>
      refine .cons (trans _ (List.mem_cons_self ..) _ _ first first') (ih rest' ?_)
      exact fun a mem => trans a (List.mem_cons_of_mem _ mem)

/-- Values without parts are compared by what they are. -/
theorem same_symm_of_partless (partless : v.SettledWithin 0 ∨ v.kind = .stream) (w : Value) :
    v.same w = w.same v := by
  cases v with
  | float x => cases w <;> first | rfl | exact Binary64.beq_symm ..
  | array vs => rcases partless with partless | kind <;> contradiction
  | object ms => rcases partless with partless | kind <;> contradiction
  | record type vs => rcases partless with partless | kind <;> contradiction
  | _ => cases w <;> first | rfl | exact Bool.beq_comm

/-- Of the values without parts, only floats are equal to something other than themselves. -/
theorem eq_or_float_of_same (partless : v.SettledWithin 0 ∨ v.kind = .stream)
    (equal : v.same w = true) :
    v = w ∨ ∃ x y, v = .float x ∧ w = .float y ∧ (x == y) = true := by
  cases v with
  | float x =>
    cases w with
    | float y => exact .inr ⟨x, y, rfl, rfl, equal⟩
    | _ => cases equal
  | array vs => rcases partless with partless | kind <;> contradiction
  | object ms => rcases partless with partless | kind <;> contradiction
  | record type vs => rcases partless with partless | kind <;> contradiction
  | null => cases w <;> first | exact .inl rfl | cases equal
  | _ => cases w <;> first | exact .inl (congrArg _ (beq_iff_eq.mp equal)) | cases equal

theorem same_trans_of_partless (partless : u.SettledWithin 0 ∨ u.kind = .stream)
    (first : u.same v = true) (second : v.same w = true) : u.same w = true := by
  rcases eq_or_float_of_same partless first with rfl | ⟨x, y, rfl, rfl, equal⟩
  · exact second
  · cases w with
    | float z => exact Binary64.beq_trans equal second
    | _ => cases second

theorem same_of_same (once : v.NamesOnce) (once' : w.NamesOnce) (equal : v.same w = true) :
    w.same v = true := by
  induction v using induction_parts generalizing w with
  | array vs ih =>
    obtain ⟨ws, rfl, each⟩ := same_array_iff.mp equal
    refine same_array_iff.mpr ⟨vs, rfl, forall₂_swap each fun v mem w mem' equal => ?_⟩
    exact ih v mem (once.item mem) (once'.item mem') equal
  | object ms ih =>
    obtain ⟨ns, rfl, -⟩ := same_object_iff_exists.mp equal
    -- What a name finds is compared both ways, so that neither object comes first.
    refine (same_object_iff once'.names once.names).mpr fun name => ?_
    have related := (same_object_iff once.names once'.names).mp equal name
    generalize found : ms.lookup name = member, found' : ns.lookup name = member' at related
    cases related with
    | none => exact .none
    | some equal =>
      have mem := mem_of_lookup found
      have mem' := mem_of_lookup found'
      exact .some (ih _ mem (once.member mem) (once'.member mem') equal)
  | record type vs ih =>
    obtain ⟨ws, rfl, each⟩ := same_record_iff_exists.mp equal
    refine same_record_iff_exists.mpr ⟨vs, rfl, forall₂_swap each fun v mem w mem' equal => ?_⟩
    exact ih v mem (once.field mem) (once'.field mem') equal
  | stream id =>
    rw [← same_symm_of_partless (.inr rfl) w]
    exact equal
  | plain v plain =>
    rw [← same_symm_of_partless (.inl plain) w]
    exact equal

theorem same_symm (once : v.NamesOnce) (once' : w.NamesOnce) : v.same w = w.same v :=
  Bool.eq_iff_iff.mpr ⟨same_of_same once once', same_of_same once' once⟩

theorem same_trans (first : u.same v = true) (second : v.same w = true) : u.same w = true := by
  induction u using induction_parts generalizing v w with
  | array us ih =>
    obtain ⟨vs, rfl, each⟩ := same_array_iff.mp first
    obtain ⟨ws, rfl, each'⟩ := same_array_iff.mp second
    refine same_array_iff.mpr ⟨ws, rfl, forall₂_trans each each' ?_⟩
    exact fun u mem v w first second => ih u mem first second
  | object ms ih =>
    obtain ⟨ns, rfl, length, each⟩ := same_object_iff_exists.mp first
    obtain ⟨ks, rfl, length', each'⟩ := same_object_iff_exists.mp second
    refine same_object_iff_exists.mpr ⟨ks, rfl, length.trans length', fun m mem => ?_⟩
    obtain ⟨v, found, equal⟩ := each m mem
    obtain ⟨w, found', equal'⟩ := each' _ (mem_of_lookup found)
    exact ⟨w, found', ih m mem equal equal'⟩
  | record type us ih =>
    obtain ⟨vs, rfl, each⟩ := same_record_iff_exists.mp first
    obtain ⟨ws, rfl, each'⟩ := same_record_iff_exists.mp second
    refine same_record_iff_exists.mpr ⟨ws, rfl, forall₂_trans each each' ?_⟩
    exact fun u mem v w first second => ih u mem first second
  | stream id => exact same_trans_of_partless (.inr rfl) first second
  | plain u plain => exact same_trans_of_partless (.inl plain) first second

/-! ### What is equal to itself -/

theorem occurs_array_iff : Occurs w (.array vs) ↔ w = .array vs ∨ ∃ v ∈ vs, Occurs w v := by
  constructor
  · intro occurs
    cases occurs with
    | self => exact .inl rfl
    | item mem occurs => exact .inr ⟨_, mem, occurs⟩
  · rintro (rfl | ⟨v, mem, occurs⟩)
    · exact .self
    · exact .item mem occurs

theorem occurs_object_iff : Occurs w (.object ms) ↔ w = .object ms ∨ ∃ m ∈ ms, Occurs w m.2 := by
  constructor
  · intro occurs
    cases occurs with
    | self => exact .inl rfl
    | member mem occurs => exact .inr ⟨_, mem, occurs⟩
  · rintro (rfl | ⟨m, mem, occurs⟩)
    · exact .self
    · exact .member mem occurs

theorem occurs_record_iff {type : RecordType} :
    Occurs w (.record type vs) ↔ w = .record type vs ∨ ∃ v ∈ vs, Occurs w v := by
  constructor
  · intro occurs
    cases occurs with
    | self => exact .inl rfl
    | field mem occurs => exact .inr ⟨_, mem, occurs⟩
  · rintro (rfl | ⟨v, mem, occurs⟩)
    · exact .self
    · exact .field mem occurs

theorem same_self_iff (once : v.NamesOnce) :
    v.same v = true ↔ ∀ x, Occurs (.float x) v → x.isNaN = false := by
  induction v using induction_parts with
  | array vs ih =>
    simp only [occurs_array_iff, reduceCtorEq, false_or]
    rw [same, sameItems_iff, List.forall₂_same]
    constructor
    · rintro each x ⟨v, mem, occurs⟩
      exact (ih v mem (once.item mem)).mp (each v mem) x occurs
    · exact fun numbers v mem =>
        (ih v mem (once.item mem)).mpr fun x occurs => numbers x ⟨v, mem, occurs⟩
  | object ms ih =>
    simp only [occurs_object_iff, reduceCtorEq, false_or]
    rw [same, Bool.and_eq_true, sameMembers_iff]
    constructor
    · rintro ⟨-, each⟩ x ⟨m, mem, occurs⟩
      obtain ⟨w, found, equal⟩ := each m mem
      -- The name stands there once, so what it finds is the member itself.
      rw [(lookup_eq_some_iff_mem once.names).mpr mem] at found
      cases found
      exact (ih m mem (once.member mem)).mp equal x occurs
    · refine fun numbers => ⟨beq_self_eq_true _, fun m mem => ⟨m.2, ?_, ?_⟩⟩
      · exact (lookup_eq_some_iff_mem once.names).mpr mem
      · exact (ih m mem (once.member mem)).mpr fun x occurs => numbers x ⟨m, mem, occurs⟩
  | record type vs ih =>
    simp only [occurs_record_iff, reduceCtorEq, false_or]
    rw [same, Bool.and_eq_true, sameItems_iff, List.forall₂_same]
    constructor
    · rintro ⟨-, each⟩ x ⟨v, mem, occurs⟩
      exact (ih v mem (once.field mem)).mp (each v mem) x occurs
    · exact fun numbers => ⟨beq_self_eq_true _, fun v mem =>
        (ih v mem (once.field mem)).mpr fun x occurs => numbers x ⟨v, mem, occurs⟩⟩
  | stream id =>
    refine iff_of_true (beq_self_eq_true id) fun x occurs => ?_
    cases occurs
  | plain v plain =>
    cases v with
    | float x =>
      refine Binary64.beq_self_iff.trans ⟨fun number y occurs => ?_, fun numbers => numbers x .self⟩
      cases occurs
      exact number
    | array vs => exact plain.elim
    | object ms => exact plain.elim
    | record type vs => exact plain.elim
    | stream id => exact plain.elim
    | null => exact iff_of_true rfl fun x occurs => nomatch occurs
    | _ => exact iff_of_true (beq_self_eq_true _) fun x occurs => nomatch occurs

/-! ### Links and streams -/

/-- Links are equal exactly if they share one resolver: whatever it is replaced with by way of one
of them, the other has it too. -/
theorem same_link_iff {a b : LinkId} : (link a).same (.link b) = true ↔
    ∀ (h : Host) (r : Resolver), a.index < h.links.size →
      (h.links.set! a.index r)[b.index]? = some r := by
  constructor
  · intro equal h r inside
    obtain rfl := beq_iff_eq.mp equal
    exact Array.getElem?_setIfInBounds_self_of_lt inside
  · intro shared
    by_contra other
    have other : a.index ≠ b.index := fun index => other (beq_iff_eq.mpr (congrArg LinkId.mk index))
    -- A host where all links have one and the same resolver, and another resolver.
    have found := shared
      { Host.empty with links := Array.replicate (a.index + 1) ⟨"a", .give .null, []⟩ }
      ⟨"b", .give .null, []⟩ (by simp)
    simp [Array.getElem?_setIfInBounds_ne other, Array.getElem?_replicate] at found

/-- Streams are equal exactly if they share one cursor: wherever it is moved by way of one of them,
the other one stands there too. -/
theorem same_stream_iff {a b : StreamId} : (stream a).same (.stream b) = true ↔
    ∀ (h : Host) (c : Cursor), a.index < h.streams.size →
      ((h.setCursor a c).streams[b.index]?).map StreamCell.cursor = some c := by
  constructor
  · intro equal h c inside
    obtain rfl := beq_iff_eq.mp equal
    simp only [Host.setCursor, Host.modifyStream, Array.getElem?_modify, if_true,
      Array.getElem?_eq_getElem inside, Option.map_some]
  · intro shared
    by_contra other
    have other : a.index ≠ b.index :=
      fun index => other (beq_iff_eq.mpr (congrArg StreamId.mk index))
    have found := shared
      { Host.empty with
        streams := Array.replicate (a.index + 1) ⟨.source ⟨"a", true, .listed [], 0⟩, false⟩ }
      (.source ⟨"b", true, .listed [], 0⟩) (by simp)
    simp [Host.setCursor, Host.modifyStream, Array.getElem?_modify, other,
      Array.getElem?_replicate] at found

/-! ### The laws together -/

/-- Equality is symmetric and transitive, and a value is equal to itself exactly if no NaN occurs in
it. Objects are told by what their names find, so that it does not matter in which order members
were given, as long as the last one for each name is the same. Records are told by the name and the
fields of their types and by their values, links and streams by what they share. No object has a
name twice, if it was made by giving members one after the other. -/
theorem equality_laws :
    (∀ v w : Value, v.NamesOnce → w.NamesOnce → v.same w = w.same v) ∧
    (∀ u v w : Value, u.same v = true → v.same w = true → u.same w = true) ∧
    (∀ v : Value, v.NamesOnce →
      (v.same v = true ↔ ∀ x, Occurs (.float x) v → x.isNaN = false)) ∧
    (∀ given : List (String × Value), (∀ m ∈ given, m.2.NamesOnce) →
      (ofMembers given).NamesOnce) ∧
    (∀ ms ns : List (String × Value), (ms.map Prod.fst).Nodup → (ns.map Prod.fst).Nodup →
      ((object ms).same (.object ns) = true ↔
        ∀ name, Option.Rel (fun v w => v.same w = true) (ms.lookup name) (ns.lookup name))) ∧
    (∀ given given' : List (String × Value),
      (∀ name, given.reverse.lookup name = given'.reverse.lookup name) →
        ∀ v, (ofMembers given).same v = (ofMembers given').same v ∧
          v.same (ofMembers given) = v.same (ofMembers given')) ∧
    (∀ (s t : RecordType) (vs ws : List Value), (record s vs).same (.record t ws) = true ↔
      s.name = t.name ∧ s.fields = t.fields ∧
        List.Forall₂ (fun v w => v.same w = true) vs ws) ∧
    (∀ a b : LinkId, (link a).same (.link b) = true ↔
      ∀ (h : Host) (r : Resolver), a.index < h.links.size →
        (h.links.set! a.index r)[b.index]? = some r) ∧
    ∀ a b : StreamId, (stream a).same (.stream b) = true ↔
      ∀ (h : Host) (c : Cursor), a.index < h.streams.size →
        ((h.setCursor a c).streams[b.index]?).map StreamCell.cursor = some c := by
  refine ⟨fun v w => same_symm, fun u v w => same_trans, fun v => same_self_iff,
    fun given => namesOnce_ofMembers, fun ms ns => same_object_iff, fun given given' alike v => ?_,
    fun s t vs ws => same_record_iff, fun a b => same_link_iff, fun a b => same_stream_iff⟩
  -- In both orders the same names find the same members.
  have perm : (collectMembers given).Perm (collectMembers given') := by
    refine perm_of_lookup (nodup_names_collectMembers given) (nodup_names_collectMembers given') ?_
    intro name
    rw [lookup_collectMembers, lookup_collectMembers, alike]
  exact same_object_of_perm perm (nodup_names_collectMembers given) v

/-- A number and a link, given in two orders, and a NaN. -/
theorem equality_laws_orders :
    (ofMembers [("a", .float 1.5), ("b", .link ⟨0⟩)]).same
        (ofMembers [("b", .link ⟨0⟩), ("a", .float 1.5)]) = true ∧
      (array [.float Float.nan]).same (.array [.float Float.nan]) = false := by
  obtain ⟨-, -, self, made, -, orders, -⟩ := equality_laws
  constructor
  · have once : (ofMembers [("a", .float 1.5), ("b", .link ⟨0⟩)]).NamesOnce := by
      refine made _ fun m mem members occurs => ?_
      rcases List.mem_pair.mp mem with rfl | rfl <;> cases occurs
    -- The one number in it is no NaN.
    have numbers (x : Float)
        (occurs : Occurs (.float x) (ofMembers [("a", .float 1.5), ("b", .link ⟨0⟩)])) :
        x.isNaN = false := by
      cases occurs with
      | member mem occurs =>
        rcases List.mem_pair.mp (mem_of_mem_collectMembers mem) with rfl | rfl
        · cases occurs
          decide +kernel
        · cases occurs
    have alike (name : String) : [("a", Value.float 1.5), ("b", .link ⟨0⟩)].reverse.lookup name =
        [("b", Value.link ⟨0⟩), ("a", .float 1.5)].reverse.lookup name :=
      lookup_eq_of_perm (.swap ..) (by decide)
    rw [← (orders _ _ alike _).2]
    exact (self _ once).mpr numbers
  · have once : (array [.float Float.nan]).NamesOnce := by
      intro members occurs
      cases occurs with
      | item mem occurs =>
        rw [List.mem_singleton.mp mem] at occurs
        cases occurs
    rw [Bool.eq_false_iff]
    intro equal
    have number := (self _ once).mp equal Float.nan (.item (List.mem_singleton.mpr rfl) .self)
    have nan : Float.nan.isNaN = true := by decide +kernel
    rw [nan] at number
    cases number

end Value

end TreeQuery
