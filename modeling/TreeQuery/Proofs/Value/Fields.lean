import TreeQuery.Proofs.Json.Ordered
import TreeQuery.Proofs.Value.Documents

/-!
# Fields by name

Two rules decide which field of a record a name stands for. A lookup prefers fields that go under
the name in output because they were given it, and takes the last one of them, or else the last one
that was declared with the name. In a document the last field has the name that goes under it,
whether it was given the name or declared with it. Without clashes, both are the same field.

## Main definitions

* `IsLast` — the last entry of a list that has a property
* `RecordType.Distinct` — names do not clash

## Main statements

* `RecordType.fieldIndex?_eq_some_iff` — the field that a lookup finds
* `Json.lookup_inOrder` — the member that a document has
* `Evaluation.toJson_record` — the members of a record's document, and when a lookup finds them
* `Evaluation.toJson_record_of_distinct` — without clashes, documents and lookups agree
* `Evaluation.not_forall_member_toJson` — with clashes, they need not
-/

namespace TreeQuery

/-! ### The last entry -/

section IsLast

variable {α β : Type} {xs : List α} {x : α} {i : Nat}

/-- At this position is the last entry with the property. -/
def IsLast (property : α → Prop) (xs : List α) (i : Nat) : Prop :=
  (∃ x, xs[i]? = some x ∧ property x) ∧ ∀ j x, i < j → xs[j]? = some x → ¬ property x

variable {property : α → Prop}

/-- A further entry is the last one with the property, if it has it. -/
theorem isLast_concat_iff :
    IsLast property (xs ++ [x]) i ↔
      property x ∧ i = xs.length ∨ ¬ property x ∧ IsLast property xs i := by
  have here : (xs ++ [x])[xs.length]? = some x := List.getElem?_concat_length
  constructor
  · rintro ⟨⟨y, found, holds⟩, last⟩
    -- The position is among the entries before, or that of the further one, or behind.
    rcases Nat.lt_trichotomy i xs.length with before | rfl | behind
    · rw [List.getElem?_append_left before] at found
      refine .inr ⟨last _ x before here, ⟨y, found, holds⟩, fun j z later found' => ?_⟩
      have inside : j < xs.length := (List.getElem?_eq_some_iff.mp found').1
      exact last j z later (by rwa [List.getElem?_append_left inside])
    · rw [here] at found
      cases found
      exact .inl ⟨holds, rfl⟩
    · rw [List.getElem?_eq_none (by simpa using behind)] at found
      cases found
  · rintro (⟨holds, rfl⟩ | ⟨fails, ⟨y, found, holds⟩, last⟩)
    · refine ⟨⟨x, here, holds⟩, fun j z later found => ?_⟩
      rw [List.getElem?_eq_none (by simpa using later)] at found
      cases found
    · have inside : i < xs.length := (List.getElem?_eq_some_iff.mp found).1
      refine ⟨⟨y, by rwa [List.getElem?_append_left inside], holds⟩, fun j z later found' => ?_⟩
      rcases Nat.lt_trichotomy j xs.length with before | rfl | behind
      · exact last j z later (by rwa [List.getElem?_append_left before] at found')
      · rw [here] at found'
        cases found'
        exact fails
      · rw [List.getElem?_eq_none (by simpa using behind)] at found'
        cases found'

theorem not_isLast_nil : ¬ IsLast property [] i := by
  rintro ⟨⟨x, found, -⟩, -⟩
  cases found

theorem isLast_map {f : α → β} {property : β → Prop} :
    IsLast property (xs.map f) i ↔ IsLast (fun x => property (f x)) xs i := by
  induction xs using List.reverseRecOn with
  | nil => exact iff_of_false not_isLast_nil not_isLast_nil
  | append_singleton xs x ih =>
    rw [List.map_append, List.map_singleton, isLast_concat_iff, isLast_concat_iff, ih,
      List.length_map]

/-- If an entry has the property, one is the last. -/
theorem exists_isLast (mem : x ∈ xs) (holds : property x) : ∃ i, IsLast property xs i := by
  induction xs using List.reverseRecOn with
  | nil => cases mem
  | append_singleton xs y ih =>
    by_cases last : property y
    · exact ⟨_, isLast_concat_iff.mpr (.inl ⟨last, rfl⟩)⟩
    · have inside : x ∈ xs := by
        rcases List.mem_append.mp mem with inside | here
        · exact inside
        · obtain rfl := List.mem_singleton.mp here
          exact absurd holds last
      obtain ⟨i, found⟩ := ih inside
      exact ⟨i, isLast_concat_iff.mpr (.inr ⟨last, found⟩)⟩

theorem IsLast.unique {j : Nat} (first : IsLast property xs i) (second : IsLast property xs j) :
    i = j := by
  obtain ⟨⟨x, found, holds⟩, last⟩ := first
  obtain ⟨⟨y, found', holds'⟩, last'⟩ := second
  rcases Nat.lt_trichotomy i j with before | same | behind
  · exact absurd holds' (last j y before found')
  · exact same
  · exact absurd holds (last' i x behind found)

theorem lookup_cons_eq_ite {name first : String} {taken : α} {rest : List (String × α)} :
    ((first, taken) :: rest).lookup name =
      if name = first then some taken else rest.lookup name := by
  rw [List.lookup_cons]
  by_cases same : name = first
  · simp [same]
  · simp [beq_eq_false_iff_ne.mpr same, same]

/-- Looked up from the back, a name finds the last entry that has it. -/
theorem lookup_reverse_eq_some_iff {entries : List (String × α)} {name : String} :
    entries.reverse.lookup name = some x ↔
      ∃ i, IsLast (·.1 = name) entries i ∧ entries[i]? = some (name, x) := by
  induction entries using List.reverseRecOn with
  | nil => simp
  | append_singleton entries entry ih =>
    obtain ⟨first, y⟩ := entry
    rw [List.reverse_append, List.reverse_singleton, List.singleton_append, lookup_cons_eq_ite]
    simp only [isLast_concat_iff]
    by_cases same : name = first
    · subst same
      simp
    · simp only [same, Ne.symm same, if_false, false_and, not_false_eq_true, true_and, false_or, ih]
      refine exists_congr fun i => and_congr_right fun last => ?_
      obtain ⟨⟨z, found, -⟩, -⟩ := last
      rw [List.getElem?_append_left (List.getElem?_eq_some_iff.mp found).1]

end IsLast

/-! ### Lookups -/

namespace RecordType

variable {fields : List Field} {name : String} {i : Nat}

theorem lookup_declared :
    (fields.zipIdx.foldl (fun entries (f, i) => (f.name, i) :: entries) []).lookup name = some i ↔
      IsLast (·.name = name) fields i := by
  induction fields using List.reverseRecOn with
  | nil => exact iff_of_false nofun not_isLast_nil
  | append_singleton fields f ih =>
    rw [List.zipIdx_append, List.foldl_append, List.zipIdx_singleton, List.foldl_cons,
      List.foldl_nil, lookup_cons_eq_ite, isLast_concat_iff, ← ih]
    by_cases same : name = f.name
    · simp [same, eq_comm]
    · simp [same, Ne.symm same]

theorem lookup_renamed {declared : List (String × Nat)} :
    (fields.zipIdx.foldl (fun entries (f, i) =>
      match f.outputAs with
      | some name => (name, i) :: entries
      | none => entries) declared).lookup name = some i ↔
      IsLast (·.outputAs = some name) fields i ∨
        (∀ f ∈ fields, f.outputAs ≠ some name) ∧ declared.lookup name = some i := by
  induction fields using List.reverseRecOn with
  | nil => simp [not_isLast_nil]
  | append_singleton fields f ih =>
    rw [List.zipIdx_append, List.foldl_append, List.zipIdx_singleton, List.foldl_cons,
      List.foldl_nil, isLast_concat_iff]
    cases renamed : f.outputAs with
    | none => simp [ih, renamed, or_imp, forall_and]
    | some given =>
      simp only [renamed, lookup_cons_eq_ite]
      by_cases same : name = given
      · simp [same, renamed, eq_comm]
      · simp [same, Ne.symm same, ih, renamed, or_imp, forall_and]

/-- A lookup finds the last field that was given the name for output, or else the last one that was
declared with it. -/
theorem fieldIndex?_eq_some_iff {type : RecordType} :
    type.fieldIndex? name = some i ↔
      IsLast (·.outputAs = some name) type.fields i ∨
        (∀ f ∈ type.fields, f.outputAs ≠ some name) ∧ IsLast (·.name = name) type.fields i := by
  rw [← lookup_declared]
  exact lookup_renamed

/-- A lookup finds the last field that goes under the name, unless another one was given the name or
a later one was declared with it. -/
theorem fieldIndex?_eq_some_iff_of_isLast {type : RecordType}
    (last : IsLast (·.outputName = name) type.fields i) :
    type.fieldIndex? name = some i ↔
      (∃ f, type.fields[i]? = some f ∧ f.outputAs = some name) ∨
        (∀ f ∈ type.fields, f.outputAs ≠ some name) ∧
          ∀ j f, i < j → type.fields[j]? = some f → f.name ≠ name := by
  have renamed {f : Field} (given : f.outputAs = some name) : f.outputName = name := by
    rw [Field.outputName, given, Option.getD_some]
  obtain ⟨⟨f, found, goes⟩, later⟩ := last
  rw [fieldIndex?_eq_some_iff]
  constructor
  · rintro (⟨given, -⟩ | ⟨noneGiven, -, declared⟩)
    · exact .inl given
    · exact .inr ⟨noneGiven, declared⟩
  · rintro (given | ⟨noneGiven, declared⟩)
    · exact .inl ⟨given, fun j g behind found' given' => later j g behind found' (renamed given')⟩
    · refine .inr ⟨noneGiven, ⟨f, found, ?_⟩, declared⟩
      cases given : f.outputAs with
      | none => rwa [Field.outputName, given, Option.getD_none] at goes
      | some other =>
        rw [Field.outputName, given, Option.getD_some] at goes
        exact absurd (goes ▸ given) (noneGiven f (List.mem_of_getElem? found))

/-- No field goes under a name that another field goes under or was declared with. -/
def Distinct (type : RecordType) : Prop :=
  type.fields.Pairwise fun f g =>
    f.outputName ≠ g.outputName ∧ f.outputName ≠ g.name ∧ g.outputName ≠ f.name

/-- Without clashes, a lookup finds the field that goes under the name. -/
theorem Distinct.fieldIndex?_eq {type : RecordType} (distinct : type.Distinct)
    (last : IsLast (·.outputName = name) type.fields i) : type.fieldIndex? name = some i := by
  obtain ⟨⟨f, found, goes⟩, later⟩ := id last
  refine (fieldIndex?_eq_some_iff_of_isLast last).mpr ?_
  by_cases given : f.outputAs = some name
  · exact .inl ⟨f, found, given⟩
  · obtain ⟨inside, rfl⟩ := List.getElem?_eq_some_iff.mp found
    have apart := List.pairwise_iff_getElem.mp distinct
    refine .inr ⟨fun g mem given' => ?_, fun j g behind found' declared => ?_⟩
    · obtain ⟨j, inside', rfl⟩ := List.mem_iff_getElem.mp mem
      have goes' : type.fields[j].outputName = name := by
        rw [Field.outputName, given', Option.getD_some]
      rcases Nat.lt_trichotomy i j with before | rfl | behind
      · exact (apart i j inside inside' before).1 (goes.trans goes'.symm)
      · exact given given'
      · exact (apart j i inside' inside behind).1 (goes'.trans goes.symm)
    · obtain ⟨inside', rfl⟩ := List.getElem?_eq_some_iff.mp found'
      exact (apart i j inside inside' behind).2.1 (goes.trans declared.symm)

end RecordType

/-! ### Members of documents -/

namespace Json

variable {α : Type} {name : String} {member : α} {ms given : List (String × α)}

/-- After a member was put in, its name has that member and others are as before. -/
theorem lookup_putOrdered (name' : String) :
    (putOrdered name member ms).lookup name' =
      if name' = name then some member else ms.lookup name' := by
  induction ms with
  | nil => exact lookup_cons_eq_ite
  | cons first rest ih =>
    obtain ⟨first, taken⟩ := first
    unfold putOrdered
    split
    · next here =>
      subst here
      by_cases same : name' = name <;> simp [lookup_cons_eq_ite, same]
    · next other =>
      split
      · exact lookup_cons_eq_ite
      · rw [lookup_cons_eq_ite, lookup_cons_eq_ite, ih]
        by_cases same : name' = first
        · simp [same, Ne.symm other]
        · simp [same]

/-- Of several members given to one name, the last one is left. -/
theorem lookup_inOrder (given : List (String × α)) (name : String) :
    (inOrder given).lookup name = given.reverse.lookup name := by
  induction given using List.reverseRecOn with
  | nil => rfl
  | append_singleton given entry ih =>
    rw [inOrder, List.foldl_append, List.foldl_cons, List.foldl_nil, lookup_putOrdered,
      List.reverse_append, List.reverse_singleton, List.singleton_append, lookup_cons_eq_ite, ← ih,
      inOrder]

end Json

namespace Evaluation

open Run

variable {h : Host} {type : RecordType} {vs : List Value}

section Given

variable {names : List String} {given : List (String × Json)}
  (each : List.Forall₂ (fun g m => g.1 = m.1 ∧ Reaches (fun n => toJson n m.2) h (.ok g.2) h) given
    (names.zip vs))
  (length : names.length = vs.length)
include each length

theorem map_fst_given : given.map Prod.fst = names := by
  have same : List.Forall₂ (· = ·) (given.map Prod.fst) ((names.zip vs).map Prod.fst) :=
    List.forall₂_map_left_iff.mpr (List.forall₂_map_right_iff.mpr (each.imp fun _ _ g => g.1))
  rwa [List.forall₂_eq_eq_eq, List.map_fst_zip (Nat.le_of_eq length)] at same

/-- Of the members given for the fields of a record, the last one given to a name is left. -/
theorem exists_mem_inOrder_of_isLast {name : String} {i : Nat} {v : Value}
    (last : IsLast (· = name) names i) (here : vs[i]? = some v) :
    ∃ j, (name, j) ∈ Json.inOrder given ∧ Reaches (fun n => toJson n v) h (.ok j) h := by
  have last' : IsLast (·.1 = name) given i :=
    isLast_map.mp ((map_fst_given each length).symm ▸ last)
  obtain ⟨⟨g, found, rfl⟩, -⟩ := id last'
  obtain ⟨⟨_, named, rfl⟩, -⟩ := last
  have zipped : (names.zip vs)[i]? = some (g.1, v) := List.getElem?_zip_eq_some.mpr ⟨named, here⟩
  obtain ⟨inside, g_eq⟩ := List.getElem?_eq_some_iff.mp found
  obtain ⟨inside', m_eq⟩ := List.getElem?_eq_some_iff.mp zipped
  obtain ⟨-, reached⟩ := (List.forall₂_iff_get.mp each).2 i inside inside'
  rw [List.get_eq_getElem, List.get_eq_getElem, g_eq, m_eq] at reached
  refine ⟨g.2, mem_of_lookup ?_, reached⟩
  rw [Json.lookup_inOrder]
  exact lookup_reverse_eq_some_iff.mpr ⟨i, last', found⟩

end Given

/-- The members of a record's document are the names that its fields go under in output. Under each
of them is the document of the last field that goes under it. That is the field that a lookup finds
exactly if it was given the name, or no field was and no later field was declared with the name. -/
theorem toJson_record (complete : vs.length = type.fields.length)
    (closed : ∀ v ∈ vs, v.isClosed = true) (h : Host) :
    ∃ members,
      Reaches (fun n => toJson n (.record type vs)) h (.ok (.object members)) h ∧
      (members.map Prod.fst).Nodup ∧
      (∀ name, name ∈ members.map Prod.fst ↔ ∃ f ∈ type.fields, f.outputName = name) ∧
      ∀ name i v, IsLast (·.outputName = name) type.fields i → vs[i]? = some v →
        (∃ j, (name, j) ∈ members ∧ Reaches (fun n => toJson n v) h (.ok j) h) ∧
        (type.fieldIndex? name = some i ↔
          (∃ f, type.fields[i]? = some f ∧ f.outputAs = some name) ∨
            (∀ f ∈ type.fields, f.outputAs ≠ some name) ∧
              ∀ j f, i < j → type.fields[j]? = some f → f.name ≠ name) := by
  obtain ⟨names, names_eq⟩ : ∃ names, names = type.fields.map Field.outputName := ⟨_, rfl⟩
  have length : names.length = vs.length := by rw [names_eq, List.length_map, complete]
  have closed' : ∀ m ∈ names.zip vs, m.2.isClosed = true :=
    fun m mem => closed m.2 (List.of_mem_zip mem).2
  obtain ⟨given, turns, each⟩ := exists_inTurn_documentMember closed' h
  have given_names := map_fst_given each length
  -- Members are put in one after the other, so that the last of a name stays.
  have member {name : String} {i : Nat} {v : Value}
      (last : IsLast (·.outputName = name) type.fields i) (here : vs[i]? = some v) :
      ∃ j, (name, j) ∈ Json.inOrder given ∧ Reaches (fun n => toJson n v) h (.ok j) h := by
    have last' : IsLast (· = name) names i := names_eq ▸ isLast_map.mpr last
    exact exists_mem_inOrder_of_isLast each length last' here
  rw [names_eq] at given_names turns
  refine ⟨Json.inOrder given, reaches_toJson_record_iff.mpr ⟨_, turns, rfl⟩,
    (Json.ordered_inOrder given).nodup, fun name => ⟨fun mem => ?_, ?_⟩,
    fun name i v last here => ⟨member last here, RecordType.fieldIndex?_eq_some_iff_of_isLast last⟩⟩
  · obtain ⟨entry, inside, rfl⟩ := List.mem_map.mp mem
    have among := List.mem_map_of_mem (f := Prod.fst) (Json.mem_of_mem_inOrder inside)
    rw [given_names] at among
    exact List.mem_map.mp among
  · rintro ⟨f, mem, goes⟩
    obtain ⟨i, last⟩ : ∃ i, IsLast (·.outputName = name) type.fields i := exists_isLast mem goes
    obtain ⟨⟨g, found, -⟩, -⟩ := id last
    have inside : i < vs.length := complete ▸ (List.getElem?_eq_some_iff.mp found).1
    obtain ⟨j, mem', -⟩ := member last (List.getElem?_eq_getElem inside)
    exact List.mem_map_of_mem mem'

/-- Without clashes, each member of a record's document is the document of what a lookup of its name
finds. -/
theorem toJson_record_of_distinct (distinct : type.Distinct)
    (complete : vs.length = type.fields.length) (closed : ∀ v ∈ vs, v.isClosed = true) (h : Host) :
    ∃ members, Reaches (fun n => toJson n (.record type vs)) h (.ok (.object members)) h ∧
      ∀ name j, (name, j) ∈ members → ∃ v, (Value.record type vs).member? name = some v ∧
        Reaches (fun n => toJson n v) h (.ok j) h := by
  obtain ⟨members, reached, once, names, each⟩ := toJson_record complete closed h
  refine ⟨members, reached, fun name j mem => ?_⟩
  obtain ⟨f, among, goes⟩ := (names name).mp (List.mem_map_of_mem mem)
  obtain ⟨i, last⟩ : ∃ i, IsLast (·.outputName = name) type.fields i := exists_isLast among goes
  obtain ⟨⟨g, found, -⟩, -⟩ := id last
  have inside : i < vs.length := complete ▸ (List.getElem?_eq_some_iff.mp found).1
  obtain ⟨⟨j', mem', document⟩, -⟩ := each name i vs[i] last (List.getElem?_eq_getElem inside)
  obtain rfl : j = j' := congrArg Prod.snd (List.inj_on_of_nodup_map once mem mem' rfl)
  refine ⟨vs[i], ?_, document⟩
  rw [Value.member?, distinct.fieldIndex?_eq last, Option.bind_some,
    List.getElem?_eq_getElem inside]

/-- A type whose second field has the name that the first one goes under in output. -/
def clashing : RecordType := ⟨"Pair", [⟨"b", some "a"⟩, ⟨"a", none⟩]⟩

/-- Under that name the document has the second field. -/
theorem toJson_record_clashing : ∃ members,
    Reaches (fun n => toJson n (.record clashing [.integer 1, .integer 2])) .empty
        (.ok (.object members)) .empty ∧
      ∃ j, ("a", j) ∈ members ∧ Reaches (fun n => toJson n (.integer 2)) .empty (.ok j) .empty := by
  have complete : [Value.integer 1, .integer 2].length = clashing.fields.length := rfl
  obtain ⟨members, reached, -, -, each⟩ :=
    toJson_record complete (by simp [Value.isClosed]) .empty
  have last : IsLast (·.outputName = "a") ([⟨"b", some "a"⟩] ++ [(⟨"a", none⟩ : Field)]) 1 :=
    isLast_concat_iff.mpr (.inl ⟨rfl, rfl⟩)
  obtain ⟨member, -⟩ := each "a" 1 (.integer 2) last rfl
  exact ⟨members, reached, member⟩

/-- Lookups and documents do not agree on all records: under a name that two fields go under, the
document can have one of them where a lookup finds the other. -/
theorem not_forall_member_toJson : ¬ ∀ (type : RecordType) (vs : List Value),
    vs.length = type.fields.length → (∀ v ∈ vs, v.isClosed = true) →
      ∀ members, Reaches (fun n => toJson n (.record type vs)) .empty (.ok (.object members)) .empty →
        ∀ name j, (name, j) ∈ members → ∃ v, (Value.record type vs).member? name = some v ∧
          Reaches (fun n => toJson n v) .empty (.ok j) .empty := by
  intro agree
  have reached : Reaches (fun n => toJson n (.record clashing [.integer 1, .integer 2])) .empty
      (.ok (.object [("a", .ofInt64 2)])) .empty := ⟨2, rfl⟩
  obtain ⟨v, found, document⟩ := agree _ _ rfl (by simp [Value.isClosed]) _ reached "a" _
    (List.mem_singleton_self _)
  have first : v = .integer 1 := (Option.some.inj found).symm
  subst first
  have other : Reaches (fun n => toJson n (.integer 1)) .empty (.ok (.ofInt64 1)) .empty := ⟨1, rfl⟩
  have same := document.unique other (steady_toJson _)
  cases same.1

end Evaluation

end TreeQuery
