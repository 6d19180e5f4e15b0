import TreeQuery.Evaluation.Allowance
import TreeQuery.Evaluation.Closed
import TreeQuery.Json

/-!
# Values and JSON documents

Documents are closed values. The other way round, links are resolved and streams settled on the way;
records become objects under the output names of their fields, byte strings arrays of numbers, and
doubles that are no finite numbers null.

## Main definitions

* `Value.ofJson` — the value of a document
* `Evaluation.toJson` — the document of a value

## Main statements

* `Value.isClosed_ofJson` — documents are closed
* `Evaluation.quiet_toJson` — a closed value has a document
* `Evaluation.toJson_extendedBy` — a larger allowance keeps every outcome
-/

namespace TreeQuery

/-- The value of a number: an integer where it fits, else a double. -/
def JsonNumber.toValue : JsonNumber → Value
  | natural n =>
    if n.toNat < Nat.pow 2 63 then .integer (.ofNat n.toNat) else .float (Float.ofNat n.toNat)
  | negative n => .integer n
  | float x => .float x

mutual

/-- The value of a document. -/
def Value.ofJson : Json → Value
  | .null => .null
  | .boolean b => .boolean b
  | .number n => n.toValue
  | .string s => .string s
  | .array items => .array (ofJsonItems items)
  | .object members => .ofMembers (ofJsonMembers members)

/-- The values of items. -/
def Value.ofJsonItems : List Json → List Value
  | [] => []
  | item :: items => .ofJson item :: ofJsonItems items

/-- The values of members. -/
def Value.ofJsonMembers : List (String × Json) → List (String × Value)
  | [] => []
  | (name, member) :: members => (name, .ofJson member) :: ofJsonMembers members

end

namespace Value

theorem isClosed_toValue (n : JsonNumber) : n.toValue.isClosed = true := by
  cases n with
  | natural n => rw [JsonNumber.toValue]; split <;> rfl
  | negative n => rfl
  | float x => rfl

mutual

/-- The value of a document is closed. -/
theorem isClosed_ofJson : ∀ j : Json, (ofJson j).isClosed = true
  | .null => rfl
  | .boolean _ => rfl
  | .number n => isClosed_toValue n
  | .string _ => rfl
  | .array items => allClosed_iff.mpr (isClosed_ofJsonItems items)
  | .object members => allMembersClosed_iff.mpr fun m mem =>
      isClosed_ofJsonMembers members m (mem_of_mem_collectMembers mem)

theorem isClosed_ofJsonItems : ∀ items : List Json, ∀ v ∈ ofJsonItems items, v.isClosed = true
  | [] => fun _ mem => nomatch mem
  | item :: items => List.forall_mem_cons.mpr ⟨isClosed_ofJson item, isClosed_ofJsonItems items⟩

theorem isClosed_ofJsonMembers :
    ∀ members : List (String × Json), ∀ m ∈ ofJsonMembers members, m.2.isClosed = true
  | [] => fun _ mem => nomatch mem
  | (_, member) :: members =>
    List.forall_mem_cons.mpr ⟨isClosed_ofJson member, isClosed_ofJsonMembers members⟩

end

end Value

namespace Evaluation

/-- The document of a value. -/
def toJson : (allowance : Nat) → Value → Evaluation Json
  | 0, _ => .cutOff
  | n + 1, v =>
    match v with
    | .null => pure .null
    | .boolean b => pure (.boolean b)
    | .integer i => pure (.ofInt64 i)
    | .float x => pure (.ofFloat x)
    | .string s => pure (.string s)
    | .bytes bs => pure (.array (bs.map fun b => .ofNat b.toNat))
    | .array items => do return .array (← items.mapM fun item => toJson n item)
    | .object members => do
      let members ← members.mapM fun (name, member) => do return (name, ← toJson n member)
      return .ofMembers members
    | .record type values => do
      let members ← ((type.fields.map Field.outputName).zip values).mapM fun (name, v) => do
        return (name, ← toJson n v)
      return .ofMembers members
    | .link id => do toJson n (← resolveOnce id)
    | .stream id => do toJson n (← settle n (.stream id))

theorem toJson_extendedBy_succ (n : Nat) (v : Value) :
    Run.ExtendedBy (toJson n v) (toJson (n + 1) v) := by
  induction n generalizing v with
  | zero => exact Run.cutOff_extendedBy _
  | succ n ih =>
    unfold toJson
    split
    · exact .refl _
    · exact .refl _
    · exact .refl _
    · exact .refl _
    · exact .refl _
    · exact .refl _
    · exact (Run.ExtendedBy.mapM ih _).bind fun _ => .refl _
    · refine (Run.ExtendedBy.mapM (fun m => ?_) _).bind fun _ => .refl _
      exact (ih _).bind fun _ => .refl _
    · refine (Run.ExtendedBy.mapM (fun m => ?_) _).bind fun _ => .refl _
      exact (ih _).bind fun _ => .refl _
    · exact (Run.ExtendedBy.refl _).bind ih
    · exact ((keeps_all n).settle _).bind ih

/-- A larger allowance keeps every outcome. -/
theorem toJson_extendedBy {n m : Nat} (h : n ≤ m) (v : Value) :
    Run.ExtendedBy (toJson n v) (toJson m v) :=
  extendedBy_of_succ (fun n => toJson_extendedBy_succ n v) h

/-- A closed value has a document. -/
theorem quiet_toJson {h : Host} {n d : Nat} {v : Value} (hv : v.ClosedWithin d) (hn : d < n) :
    Run.Quiet (toJson n v) h (fun _ => True) (fun _ => False) := by
  induction n generalizing d v with
  | zero => omega
  | succ n ih =>
    unfold toJson
    split
    · exact Run.quiet_pure trivial
    · exact Run.quiet_pure trivial
    · exact Run.quiet_pure trivial
    · exact Run.quiet_pure trivial
    · exact Run.quiet_pure trivial
    · exact Run.quiet_pure trivial
    · obtain ⟨d, rfl, closed⟩ := hv.items
      exact (Run.quiet_mapM fun item mem => ih (closed item mem) (by omega)).bind fun _ _ =>
        Run.quiet_pure trivial
    · obtain ⟨d, rfl, closed⟩ := hv.members
      refine (Run.quiet_mapM fun m mem => ?_).bind fun _ (_ : ∀ m ∈ _, True) =>
        Run.quiet_pure trivial
      exact (ih (closed m mem) (by omega)).bind fun _ _ => Run.quiet_pure trivial
    · obtain ⟨d, rfl, closed⟩ := hv.fields
      refine (Run.quiet_mapM fun m mem => ?_).bind fun _ (_ : ∀ m ∈ _, True) =>
        Run.quiet_pure trivial
      exact (ih (closed m.2 (List.of_mem_zip mem).2) (by omega)).bind fun _ _ =>
        Run.quiet_pure trivial
    · exact absurd hv Value.not_closedWithin_link
    · exact absurd hv Value.not_closedWithin_stream

end Evaluation

end TreeQuery
