import TreeQuery.Proofs.Evaluation.Rules
import TreeQuery.Proofs.Value.Fields

/-!
# Values of fields

A record holds one value for each field of its type, in the order of declaration, and no other
values. There are two ways to make one: values are given to the fields of a type, or the values of
a record are changed one by one. The first way cuts off what is too much and fills up with null, the
second one keeps the number of values. So wherever a lookup of a name finds a field, it finds the
value that stands beside that field.

## Main definitions

* `Value.mapFields` — the values of a record, changed one by one
* `Value.IsBuilt` — what comes of making records in these ways

## Main statements

* `Value.getElem?_fieldValues` — which value a field is given
* `Value.outcome_mapFields_iff` — changing values is running their changes in turn
* `Value.IsBuilt.exists_complete` — a value for each field
* `Value.record_lookup` — what a lookup finds in a record
-/

namespace TreeQuery

open Run

/-- A name finds no field exactly if no field was given it for output, and none was declared with
it. -/
theorem RecordType.fieldIndex?_eq_none_iff {type : RecordType} {name : String} :
    type.fieldIndex? name = none ↔
      ∀ f ∈ type.fields, f.outputAs ≠ some name ∧ f.name ≠ name := by
  constructor
  · intro none f mem
    have absent (i : Nat) (found : type.fieldIndex? name = some i) : False := by
      rw [none] at found
      cases found
    have noneGiven : ∀ g ∈ type.fields, g.outputAs ≠ some name := fun g inside given => by
      obtain ⟨i, last⟩ : ∃ i, IsLast (·.outputAs = some name) type.fields i :=
        exists_isLast inside given
      exact absent i (fieldIndex?_eq_some_iff.mpr (.inl last))
    refine ⟨noneGiven f mem, fun declared => ?_⟩
    obtain ⟨i, last⟩ : ∃ i, IsLast (·.name = name) type.fields i := exists_isLast mem declared
    exact absent i (fieldIndex?_eq_some_iff.mpr (.inr ⟨noneGiven, last⟩))
  · intro absent
    cases found : type.fieldIndex? name with
    | none => rfl
    | some i =>
      rcases fieldIndex?_eq_some_iff.mp found with
        ⟨⟨f, here, given⟩, -⟩ | ⟨-, ⟨f, here, declared⟩, -⟩
      · exact absurd given (absent f (List.mem_of_getElem? here)).1
      · exact absurd declared (absent f (List.mem_of_getElem? here)).2

/-- A field that a name finds is among the fields of the type. -/
theorem RecordType.lt_of_fieldIndex? {type : RecordType} {name : String} {i : Nat}
    (found : type.fieldIndex? name = some i) : i < type.fields.length := by
  rcases fieldIndex?_eq_some_iff.mp found with ⟨⟨f, here, -⟩, -⟩ | ⟨-, ⟨f, here, -⟩, -⟩
  · exact (List.getElem?_eq_some_iff.mp here).1
  · exact (List.getElem?_eq_some_iff.mp here).1

namespace Value

variable {σ ε : Type} {type : RecordType} {given values : List Value} {v : Value}
  {change : Value → Run σ ε Value} {s s' : σ}

/-! ### Values given to fields -/

/-- The values that fields have when some are given. -/
def fieldValues (type : RecordType) (given : List Value) : List Value :=
  given.take type.fields.length ++ List.replicate (type.fields.length - given.length) .null

theorem ofFields_eq (type : RecordType) (given : List Value) :
    ofFields type given = .record type (fieldValues type given) := rfl

theorem length_fieldValues (type : RecordType) (given : List Value) :
    (fieldValues type given).length = type.fields.length := by
  rw [fieldValues, List.length_append, List.length_take, List.length_replicate]
  omega

/-- A field has the value that is given for it, and null if none is. -/
theorem getElem?_fieldValues {i : Nat} (inside : i < type.fields.length) :
    (fieldValues type given)[i]? = some (given[i]?.getD .null) := by
  rw [fieldValues]
  by_cases enough : i < given.length
  · rw [List.getElem?_append_left (by rw [List.length_take]; omega),
      List.getElem?_take_of_lt inside, List.getElem?_eq_getElem enough, Option.getD_some]
  · have short : given.length ≤ i := Nat.le_of_not_lt enough
    rw [List.getElem?_append_right (by rw [List.length_take]; omega), List.length_take,
      List.getElem?_replicate_of_lt (by omega), List.getElem?_eq_none short, Option.getD_none]

/-! ### Values changed one by one -/

/-- A record of the same type, with what a run gives for each value. The runs take turns in the
order of declaration. -/
def mapFields (type : RecordType) (change : Value → Run σ ε Value) (values : List Value) :
    Run σ ε Value := do
  return .record type (← values.mapM change)

/-- Settling a record is settling its values one by one. -/
theorem settle_record (n : Nat) (type : RecordType) (values : List Value) :
    Evaluation.settle (n + 1) (.record type values) =
      mapFields type (Evaluation.settle n) values := by
  simp only [Evaluation.settle, mapFields]

/-- Changing the values of a record is running their changes in turn. -/
theorem outcome_mapFields_iff {result : Except ε Value} :
    (mapFields type change values).outcome s = some (result, s') ↔
      ∃ result', InTurn (fun v _ => change v) values s result' s' ∧
        result = result'.map (.record type) := by
  have steady (v : Value) : Steady fun _ => change v := steady_const _
  have once : (mapFields type change values).outcome s = some (result, s') ↔
      Reaches (fun _ => mapFields type change values) s result s' :=
    ⟨fun reached => ⟨0, reached⟩, fun ⟨_, reached⟩ => reached⟩
  rw [once]
  refine reaches_map.trans (exists_congr fun result' => and_congr_left fun _ => ?_)
  exact (inTurn_iff steady).symm

end Value

/-- What is given in turn stands position by position for what it was made of. -/
theorem Run.InTurn.forall₂ {α β σ ε : Type} {run : α → (allowance : Nat) → Run σ ε β} {as : List α}
    {s s' : σ} {bs : List β} (turns : InTurn run as s (.ok bs) s') :
    List.Forall₂ (fun a b => ∃ t t', Reaches (run a) t (.ok b) t') as bs := by
  induction as generalizing s bs with
  | nil =>
    cases turns
    exact .nil
  | cons a as ih =>
    obtain ⟨b, bs', mid, rfl, gives, rest⟩ := turns.exists_of_cons
    exact .cons ⟨s, mid, gives⟩ (ih rest)

namespace Value

variable {σ ε : Type} {type : RecordType} {given values : List Value} {v : Value}
  {change : Value → Run σ ε Value} {s s' : σ}

/-- If all changes succeed, there is a record of the same type with as many values. -/
theorem exists_of_outcome_mapFields
    (reached : (mapFields type change values).outcome s = some (.ok v, s')) :
    ∃ changed, v = .record type changed ∧
      InTurn (fun v _ => change v) values s (.ok changed) s' := by
  obtain ⟨result, turns, same⟩ := outcome_mapFields_iff.mp reached
  cases result with
  | error e => cases same
  | ok changed => exact ⟨changed, Except.ok.inj same, turns⟩

/-! ### Records that were made -/

/-- Records that were made by giving values to the fields of a type, and by changing the values of
such records one by one, however often. -/
inductive IsBuilt : Value → Prop
  | ofFields (type : RecordType) (given : List Value) : IsBuilt (ofFields type given)
  | mapFields {σ ε : Type} {type : RecordType} {values : List Value} {v : Value}
      {change : Value → Run σ ε Value} {s s' : σ} (built : IsBuilt (.record type values))
      (reached : (mapFields type change values).outcome s = some (.ok v, s')) : IsBuilt v

/-- They have a value for each field of their type, and no others. -/
theorem IsBuilt.exists_complete (built : IsBuilt v) :
    ∃ type values, v = .record type values ∧ values.length = type.fields.length := by
  induction built with
  | ofFields type given => exact ⟨type, _, ofFields_eq type given, length_fieldValues type given⟩
  | @mapFields _ _ type values _ _ _ _ _ reached ih =>
    obtain ⟨_, _, same, complete⟩ := ih
    cases same
    obtain ⟨changed, rfl, turns⟩ := exists_of_outcome_mapFields reached
    exact ⟨type, changed, rfl, turns.forall₂.length_eq ▸ complete⟩

/-- With a value for each field, the field that a name finds has one. -/
theorem member?_of_complete (complete : values.length = type.fields.length) {name : String}
    {i : Nat} (found : type.fieldIndex? name = some i) :
    ∃ f w, (type.fields.zip values)[i]? = some (f, w) ∧
      (Value.record type values).member? name = some w := by
  have inside := RecordType.lt_of_fieldIndex? found
  have inside' : i < values.length := complete ▸ inside
  refine ⟨type.fields[i], values[i], ?_, ?_⟩
  · exact List.getElem?_zip_eq_some.mpr
      ⟨List.getElem?_eq_getElem inside, List.getElem?_eq_getElem inside'⟩
  · rw [member?, found, Option.bind_some, List.getElem?_eq_getElem inside']

/-- A name finds the last field that was given it for output, else the last one that was declared
with it, else none. A record that was made has as many values as its type has fields: those given in
their order, then null. So a name finds a value in it exactly if it finds a field, and the value is
the one beside that field. Changing the values one by one, as settling does, keeps the type, and
puts at each position what the value there was changed to. -/
theorem record_lookup :
    (∀ (type : RecordType) (name : String),
      (∀ i, type.fieldIndex? name = some i ↔
        IsLast (·.outputAs = some name) type.fields i ∨
          (∀ f ∈ type.fields, f.outputAs ≠ some name) ∧ IsLast (·.name = name) type.fields i) ∧
      (type.fieldIndex? name = none ↔
        ∀ f ∈ type.fields, f.outputAs ≠ some name ∧ f.name ≠ name)) ∧
    (∀ (type : RecordType) (given : List Value), ∃ values,
      ofFields type given = .record type values ∧ values.length = type.fields.length ∧
        ∀ i, i < type.fields.length → values[i]? = some (given[i]?.getD .null)) ∧
    (∀ (n : Nat) (type : RecordType) (values : List Value),
      Evaluation.settle (n + 1) (.record type values) =
        mapFields type (Evaluation.settle n) values) ∧
    (∀ {σ ε : Type} (type : RecordType) (change : Value → Run σ ε Value) (values : List Value)
      (s s' : σ) (v : Value), (mapFields type change values).outcome s = some (.ok v, s') →
        ∃ changed, v = .record type changed ∧
          InTurn (fun v _ => change v) values s (.ok changed) s' ∧
          List.Forall₂ (fun v w => ∃ t t', (change v).outcome t = some (.ok w, t'))
            values changed) ∧
    ∀ v, IsBuilt v → ∃ type values, v = .record type values ∧
      values.length = type.fields.length ∧
      ∀ name, ((v.member? name).isSome ↔ (type.fieldIndex? name).isSome) ∧
        ∀ i, type.fieldIndex? name = some i → ∃ f w,
          (type.fields.zip values)[i]? = some (f, w) ∧ v.member? name = some w := by
  refine ⟨fun type name => ⟨fun i => RecordType.fieldIndex?_eq_some_iff,
    RecordType.fieldIndex?_eq_none_iff⟩, fun type given => ?_, settle_record, ?_,
    fun v built => ?_⟩
  · exact ⟨_, ofFields_eq type given, length_fieldValues type given,
      fun i inside => getElem?_fieldValues inside⟩
  · intro σ ε type change values s s' v reached
    obtain ⟨changed, rfl, turns⟩ := exists_of_outcome_mapFields reached
    refine ⟨changed, rfl, turns, turns.forall₂.imp ?_⟩
    rintro v w ⟨t, t', n, gives⟩
    exact ⟨t, t', gives⟩
  · obtain ⟨type, values, rfl, complete⟩ := built.exists_complete
    refine ⟨type, values, rfl, complete, fun name => ⟨?_, fun i => member?_of_complete complete⟩⟩
    -- A record that was made is complete, so that every field it has stands beside a value.
    cases found : type.fieldIndex? name with
    | none => simp [member?, found]
    | some i =>
      obtain ⟨f, w, -, member⟩ := member?_of_complete complete found
      simp [member]

/-- Two fields, the second of which was given the name of the first one for output. -/
def renamed : RecordType := ⟨"Pair", [⟨"a", none⟩, ⟨"b", some "a"⟩]⟩

/-- The second field is found by the name that the first one was declared with; it has no value of
its own, and null stands beside it. -/
theorem record_lookup_renamed : IsBuilt (ofFields renamed [.integer 1]) ∧
    (ofFields renamed [.integer 1]).member? "a" = some .null := by
  have built := IsBuilt.ofFields renamed [.integer 1]
  obtain ⟨-, -, -, -, made⟩ := record_lookup
  obtain ⟨type, values, same, -, lookup⟩ := made _ built
  cases same
  obtain ⟨f, w, beside, member⟩ := (lookup "a").2 1 (by decide)
  refine ⟨built, member.trans ?_⟩
  cases beside
  rfl

end Value

end TreeQuery
