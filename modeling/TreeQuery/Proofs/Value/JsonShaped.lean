import TreeQuery.Proofs.Run.Meets
import TreeQuery.Value.Document

/-!
# Values in the shapes of JSON

Some values have only the shapes that JSON has: there are no byte strings, records, links and
streams in them. The values of documents are among them, and filters do not lead out of them: no
filter makes a value of another shape unless there is one in its input. A float may well become
infinite, so not every value in the shapes of JSON is the value of a document.

## Main definitions

* `Value.JsonShaped` — values in the shapes of JSON

## Main statements

* `Value.jsonShaped_ofJson` — the value of a document
* `Evaluation.eval_meets_jsonShaped` — filters keep to the shapes
-/

namespace TreeQuery

/-- The value has only the shapes of JSON, and no name stands twice in an object. -/
inductive Value.JsonShaped : Value → Prop
  | null : JsonShaped .null
  | boolean (b : Bool) : JsonShaped (.boolean b)
  | integer (n : Int64) : JsonShaped (.integer n)
  | float (x : Float) : JsonShaped (.float x)
  | string (s : String) : JsonShaped (.string s)
  | array {items : List Value} (each : ∀ v ∈ items, JsonShaped v) : JsonShaped (.array items)
  | object {members : List (String × Value)} (each : ∀ m ∈ members, JsonShaped m.2)
      (names : (members.map Prod.fst).Nodup) : JsonShaped (.object members)

namespace Value

variable {v : Value} {vs : List Value} {ms : List (String × Value)}

theorem JsonShaped.items (h : JsonShaped (.array vs)) : ∀ v ∈ vs, JsonShaped v := by
  cases h with
  | array each => exact each

/-- Nothing in it has to be asked of a host. -/
theorem JsonShaped.isClosed (h : JsonShaped v) : v.isClosed = true := by
  induction h with
  | array _ ih => exact allClosed_iff.mpr ih
  | object _ _ ih => exact allMembersClosed_iff.mpr ih
  | _ => rfl

/-- Members given one after the other keep to the shapes if each does. -/
theorem jsonShaped_ofMembers (each : ∀ m ∈ ms, JsonShaped m.2) : JsonShaped (.ofMembers ms) :=
  .object (fun m mem => each m (mem_of_mem_collectMembers mem)) (nodup_names_collectMembers ms)

theorem jsonShaped_toValue (n : JsonNumber) : JsonShaped n.toValue := by
  cases n with
  | natural n =>
    rw [JsonNumber.toValue]
    split
    · exact .integer _
    · exact .float _
  | negative n => exact .integer n
  | float x => exact .float x

mutual

/-- The value of a document has the shapes of JSON. -/
theorem jsonShaped_ofJson : ∀ j : Json, JsonShaped (ofJson j)
  | .null => .null
  | .boolean b => .boolean b
  | .number n => jsonShaped_toValue n
  | .string s => .string s
  | .array items => .array (jsonShaped_ofJsonItems items)
  | .object members => jsonShaped_ofMembers (jsonShaped_ofJsonMembers members)

theorem jsonShaped_ofJsonItems : ∀ items : List Json, ∀ v ∈ ofJsonItems items, JsonShaped v
  | [] => fun _ mem => nomatch mem
  | item :: items =>
    List.forall_mem_cons.mpr ⟨jsonShaped_ofJson item, jsonShaped_ofJsonItems items⟩

theorem jsonShaped_ofJsonMembers :
    ∀ members : List (String × Json), ∀ m ∈ ofJsonMembers members, JsonShaped m.2
  | [] => fun _ mem => nomatch mem
  | (_, member) :: members =>
    List.forall_mem_cons.mpr ⟨jsonShaped_ofJson member, jsonShaped_ofJsonMembers members⟩

end

/-- What a name finds, or null, has the shapes of JSON. -/
theorem JsonShaped.member? (h : JsonShaped v) (name : String) :
    JsonShaped ((v.member? name).getD .null) := by
  cases h with
  | @object members each _ =>
    rw [Value.member?]
    cases found : members.lookup name with
    | none => exact .null
    | some w => exact each _ (mem_of_lookup found)
  | _ => exact .null

end Value

namespace Evaluation

open Run Value

variable {n : Nat} {v : Value} {h : Host}

theorem elementAt_meets {α : Type} (xs : List α) (i : Nat) :
    Meets (elementAt xs i) h (fun x _ => x ∈ xs) fun _ => True := by
  unfold elementAt
  split
  · next x found => exact meets_pure (List.mem_of_getElem? found)
  · exact meets_throw trivial

theorem operate_meets (f : Filter) (op : Operator) (a b : Value) :
    Meets (operate f op a b) h (fun w _ => w.JsonShaped) fun _ => True := by
  unfold operate
  split
  · exact meets_pure (.float _)
  · exact meets_throw trivial

/-- A step into such a value gives such a value. -/
theorem select_meets_jsonShaped (s : Selector) (shaped : v.JsonShaped) :
    Meets (select n s v) h (fun w _ => w.JsonShaped) fun _ => True := by
  induction n generalizing v h with
  | zero => exact meets_cutOff
  | succ n ih =>
    unfold select
    split
    · cases shaped
    · exact meets_pure shaped
    · refine (meets_mapM fun item mem _ => ih (shaped.items item mem)).bind fun ws _ each => ?_
      exact meets_pure (.array each)
    · cases shaped
    · exact meets_pure (shaped.member? _)
    · exact (elementAt_meets _ _).mono fun w _ mem => shaped.items w mem
    · exact (elementAt_meets _ _).bind fun _ _ _ => meets_pure (.string _)
    · cases shaped
    · cases shaped
    · exact meets_pure .null
    · exact meets_pure (.array fun w mem => shaped.items w (Slice.mem_of_mem_apply mem))
    · exact meets_pure (.string _)
    · cases shaped
    · cases shaped
    · exact meets_pure .null

theorem settle_meets_jsonShaped (shaped : v.JsonShaped) :
    Meets (settle n v) h (fun w _ => w.JsonShaped) fun _ => True := by
  by_cases large : v.depth < n
  · rw [settle_of_closed ⟨shaped.isClosed, Nat.le_refl _⟩ large]
    exact meets_pure shaped
  · -- A smaller allowance has no other outcome.
    intro result h' ho
    have same := settle_extendedBy (Nat.le_max_left n (v.depth + 1)) v h _ ho
    rw [settle_of_closed ⟨shaped.isClosed, Nat.le_refl _⟩ (by omega)] at same
    cases same
    exact shaped

/-- A filter applied to such a value gives such a value. -/
theorem eval_meets_jsonShaped (f : Filter) (shaped : v.JsonShaped) :
    Meets (eval n f v) h (fun w _ => w.JsonShaped) fun _ => True := by
  induction n generalizing f v h with
  | zero => exact meets_cutOff
  | succ n ih =>
    have settled (g : Filter) (h : Host) :
        Meets (do settle n (← eval n g v)) h (fun w _ => w.JsonShaped) fun _ => True :=
      (ih g shaped).bind fun w _ shaped' => settle_meets_jsonShaped shaped'
    unfold eval
    split
    · cases shaped
    · exact select_meets_jsonShaped _ shaped
    · exact meets_foldlM (fun s _ _ _ => select_meets_jsonShaped s) shaped
    · exact meets_foldlM (fun g _ _ _ => ih g) shaped
    · cases shaped
    · exact meets_pure (.string _)
    · exact meets_pure (.float _)
    · cases v.size? with
      | none => exact meets_pure .null
      | some k => exact meets_pure (.integer _)
    · refine meets_any.bind fun a _ _ => meets_any.bind fun b _ _ => ?_
      exact meets_any.bind fun a _ _ => meets_any.bind fun b _ _ => operate_meets _ _ a b
    · refine (meets_mapM fun g _ h => settled g h).bind fun ws _ each => ?_
      exact meets_pure (.array each)
    · refine (meets_mapM fun entry _ h => ?_).bind
        fun ms _ (each : ∀ m ∈ ms, m.2.JsonShaped) => meets_pure (jsonShaped_ofMembers each)
      refine (ih _ shaped).bind fun w _ shaped' => ?_
      exact (settle_meets_jsonShaped shaped').bind fun w _ shaped'' => meets_pure shaped''

end Evaluation

end TreeQuery
