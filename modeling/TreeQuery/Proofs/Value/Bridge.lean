import TreeQuery.Proofs.Evaluation.Rules
import TreeQuery.Proofs.Grammar.Parse
import TreeQuery.Proofs.Json.Proper
import TreeQuery.Proofs.Query.Closed
import TreeQuery.Proofs.Value.Plain

/-!
# Documents there and back

Documents and values are turned into each other. A document comes back from its value as it was,
but that integers which are too large for a signed one have become doubles. A plain value comes back
from its document as it was, but for the order of members. So the query that gives its input gives
back the document that was read.

## Main definitions

* `Json.rounded` — large integers as doubles
* `Value.document` — the document of a plain value

## Main statements

* `Evaluation.toJson_of_plain` — that this is the document
* `Value.document_ofJson`, `Value.rearranged_ofJson` — there and back, both ways round
* `Json.round_trip` — documents, values and the identity query
-/

namespace TreeQuery

/-- A function that goes through a list entry by entry is `map`. -/
theorem eq_map_of_cons {α β : Type} {f : α → β} {F : List α → List β} (nil : F [] = [])
    (cons : ∀ x xs, F (x :: xs) = f x :: F xs) (xs : List α) : F xs = xs.map f := by
  induction xs with
  | nil => exact nil
  | cons x xs ih => rw [cons, ih, List.map_cons]

/-! ### Large integers -/

/-- An integer that is too large for a signed one becomes a double. -/
def JsonNumber.rounded : JsonNumber → JsonNumber
  | natural n => if n.toNat < Nat.pow 2 63 then .natural n else .float (Float.ofNat n.toNat)
  | negative n => .negative n
  | float x => .float x

namespace Json

mutual

/-- The document with doubles in place of integers that are too large for signed ones. -/
def rounded : Json → Json
  | .null => .null
  | .boolean b => .boolean b
  | .number n => .number n.rounded
  | .string s => .string s
  | .array items => .array (roundedItems items)
  | .object members => .object (roundedMembers members)

/-- The items with doubles in place of large integers. -/
def roundedItems : List Json → List Json
  | [] => []
  | item :: items => item.rounded :: roundedItems items

/-- The members with doubles in place of large integers. -/
def roundedMembers : List (String × Json) → List (String × Json)
  | [] => []
  | (name, member) :: members => (name, member.rounded) :: roundedMembers members

end

theorem roundedItems_eq (items : List Json) : roundedItems items = items.map rounded :=
  eq_map_of_cons rfl (fun _ _ => rfl) _

theorem roundedMembers_eq (members : List (String × Json)) :
    roundedMembers members = members.map fun m => (m.1, m.2.rounded) :=
  eq_map_of_cons rfl (fun _ _ => rfl) _

end Json

/-! ### The document of a value -/

namespace Value

mutual

/-- The document of a plain value. Values of other shapes are left out of account. -/
def document : Value → Json
  | .null => .null
  | .boolean b => .boolean b
  | .integer n => .ofInt64 n
  | .float x => .ofFloat x
  | .string s => .string s
  | .array items => .array (documentItems items)
  | .object members => .ofMembers (documentMembers members)
  | _ => .null

/-- The documents of plain values. -/
def documentItems : List Value → List Json
  | [] => []
  | item :: items => item.document :: documentItems items

/-- The documents of plain members. -/
def documentMembers : List (String × Value) → List (String × Json)
  | [] => []
  | (name, member) :: members => (name, member.document) :: documentMembers members

end

theorem documentItems_eq (items : List Value) : documentItems items = items.map document :=
  eq_map_of_cons rfl (fun _ _ => rfl) _

theorem documentMembers_eq (members : List (String × Value)) :
    documentMembers members = members.map fun m => (m.1, m.2.document) :=
  eq_map_of_cons rfl (fun _ _ => rfl) _

theorem ofJsonItems_eq (items : List Json) : ofJsonItems items = items.map ofJson :=
  eq_map_of_cons rfl (fun _ _ => rfl) _

theorem ofJsonMembers_eq (members : List (String × Json)) :
    ofJsonMembers members = members.map fun m => (m.1, ofJson m.2) :=
  eq_map_of_cons rfl (fun _ _ => rfl) _

theorem map_fst_ofJsonMembers (members : List (String × Json)) :
    (ofJsonMembers members).map Prod.fst = members.map Prod.fst := by
  rw [ofJsonMembers_eq, List.map_map]
  rfl

/-- The members of an object without a name twice are those of its value. -/
theorem ofJson_object {members : List (String × Json)} (names : (members.map Prod.fst).Nodup) :
    ofJson (.object members) = .object (ofJsonMembers members) := by
  rw [← map_fst_ofJsonMembers] at names
  rw [ofJson, ofMembers, collectMembers_of_nodup names]

end Value

namespace Evaluation

open Run Value

variable {v : Value}

theorem mapM_eq_pure_map {σ ε α β : Type} {f : α → Run σ ε β} {g : α → β} {xs : List α}
    (h : ∀ x ∈ xs, f x = pure (g x)) : xs.mapM f = pure (xs.map g) := by
  induction xs with
  | nil => rfl
  | cons x xs ih =>
    obtain ⟨first, others⟩ := List.forall_mem_cons.mp h
    rw [List.mapM_cons, first, pure_bind, ih others, pure_bind, List.map_cons]

/-- With an allowance above its depth, a plain value has its document, and nothing happens. -/
theorem toJson_of_plain {n : Nat} (plain : v.Plain) (large : v.depth < n) :
    toJson n v = pure v.document := by
  -- With each level, allowance and depth go down by one.
  induction plain generalizing n with
  | @array items _ ih =>
    cases n with
    | zero => cases large
    | succ n =>
      have deep : itemsDepth items ≤ n - 1 ∧ 0 < n := by
        rw [depth] at large
        omega
      have each : ∀ v ∈ items, toJson n v = pure v.document := fun v mem =>
        ih v mem (Nat.lt_of_le_of_lt (itemsDepth_le_iff.mp deep.1 v mem) (by omega))
      rw [toJson, mapM_eq_pure_map each, pure_bind, document, documentItems_eq]
  | @object members _ _ ih =>
    cases n with
    | zero => cases large
    | succ n =>
      have deep : membersDepth members ≤ n - 1 ∧ 0 < n := by
        rw [depth] at large
        omega
      have each : ∀ m ∈ members,
          (do return (m.1, ← toJson n m.2) : Evaluation (String × Json)) =
            pure (m.1, m.2.document) := fun m mem => by
        rw [ih m mem (Nat.lt_of_le_of_lt (membersDepth_le_iff.mp deep.1 m mem) (by omega)),
          pure_bind]
      rw [toJson, mapM_eq_pure_map each, pure_bind, document, documentMembers_eq]
  | _ =>
    cases n with
    | zero => cases large
    | succ n => rfl

/-- A plain value has its document. -/
theorem reaches_toJson_of_plain (plain : v.Plain) (h : Host) :
    Reaches (fun n => toJson n v) h (.ok v.document) h :=
  ⟨v.depth + 1, congrArg (outcome · h) (toJson_of_plain plain (Nat.lt_succ_self _))⟩

end Evaluation

/-! ### From documents and back -/

/-- The double of an integer of 64 bits is nearest to it. -/
theorem isNearest_ofUInt64 (n : UInt64) : IsNearest (Float.ofNat n.toNat) n.toNat :=
  isNearest_ofNat (n.toNat_lt.trans (by decide +kernel))

theorem isFinite_ofUInt64 (n : UInt64) : (Float.ofNat n.toNat).isFinite = true :=
  Binary64.isFinite_of_isNearest (isNearest_ofUInt64 n)

/-- A number comes back from its value, a large integer as a double. -/
theorem JsonNumber.document_toValue {n : JsonNumber} (proper : n.Proper) :
    n.toValue.document = .number n.rounded := by
  cases n with
  | natural n =>
    rw [toValue, rounded]
    split
    · next small =>
      have nonneg : 0 ≤ Int64.ofNat n.toNat := Int64.zero_le_ofNat_of_lt small
      have back : (Int64.ofNat n.toNat).toUInt64 = n := by
        rw [Int64.toUInt64_ofNat', UInt64.ofNat_toNat]
      rw [Value.document, Json.ofInt64, if_pos nonneg, back]
    · rw [Value.document, Json.ofFloat, if_pos (isFinite_ofUInt64 n)]
  | negative n =>
    have below : ¬ 0 ≤ n := Int64.not_le.mpr proper
    rw [toValue, Value.document, Json.ofInt64, if_neg below, rounded]
  | float x =>
    have finite : x.isFinite = true := proper
    rw [toValue, Value.document, Json.ofFloat, if_pos finite, rounded]

/-- The value of a number in good order is plain. -/
theorem JsonNumber.plain_toValue {n : JsonNumber} (proper : n.Proper) : n.toValue.Plain := by
  cases n with
  | natural n =>
    rw [toValue]
    split
    · exact .integer _
    · exact .float (isFinite_ofUInt64 n)
  | negative n => exact .integer n
  | float x => exact .float proper

/-- An integer comes back from its document. -/
theorem Value.ofJson_ofInt64 (n : Int64) : Value.ofJson (.ofInt64 n) = .integer n := by
  rw [Json.ofInt64]
  split
  · next nonneg =>
    have same : n.toUInt64.toNat = n.toNatClampNeg := Int64.toNat_toUInt64_of_le nonneg
    have small : n.toUInt64.toNat < Nat.pow 2 63 := same ▸ Int64.toNatClampNeg_lt n
    rw [Value.ofJson, JsonNumber.toValue, if_pos small, same, Int64.ofNat_toNatClampNeg n nonneg]
  · rfl

namespace Value

variable {v : Value}

/-- The value of a document in good order is plain. -/
theorem plain_ofJson {j : Json} (proper : j.Proper) : (ofJson j).Plain := by
  induction proper with
  | null => exact .null
  | boolean b => exact .boolean b
  | number proper => exact JsonNumber.plain_toValue proper
  | string s => exact .string s
  | @array items _ ih =>
    rw [ofJson, ofJsonItems_eq]
    exact .array (List.forall_mem_map.mpr ih)
  | @object members _ ordered ih =>
    rw [ofJson_object ordered.nodup]
    refine .object ?_ (map_fst_ofJsonMembers members ▸ ordered.nodup)
    rw [ofJsonMembers_eq]
    exact List.forall_mem_map.mpr ih

/-- A document in good order comes back from its value, with large integers as doubles. -/
theorem document_ofJson {j : Json} (proper : j.Proper) : (ofJson j).document = j.rounded := by
  induction proper with
  | null => rfl
  | boolean b => rfl
  | number proper => exact JsonNumber.document_toValue proper
  | string s => rfl
  | @array items _ ih =>
    rw [ofJson, document, Json.rounded, documentItems_eq, ofJsonItems_eq, Json.roundedItems_eq,
      List.map_map]
    exact congrArg Json.array (List.map_congr_left ih)
  | @object members _ ordered ih =>
    have back : documentMembers (ofJsonMembers members) = Json.roundedMembers members := by
      rw [documentMembers_eq, ofJsonMembers_eq, Json.roundedMembers_eq, List.map_map]
      exact List.map_congr_left fun m mem => congrArg (Prod.mk m.1) (ih m mem)
    have ordered' : Json.Ordered (Json.roundedMembers members) := by
      rw [Json.roundedMembers_eq]
      exact List.pairwise_map.mpr ordered
    rw [ofJson_object ordered.nodup, document, back, Json.rounded]
    exact congrArg Json.object (Json.inOrder_of_ordered ordered')

/-! ### From values and back -/

/-- The document of a plain value is in good order. -/
theorem Plain.proper_document (plain : Plain v) : v.document.Proper := by
  induction plain with
  | null => exact .null
  | boolean b => exact .boolean b
  | integer n =>
    rw [document, Json.ofInt64]
    split
    · exact .number trivial
    · next below => exact .number (Int64.not_le.mp below)
  | float finite =>
    rw [document, Json.ofFloat, if_pos finite]
    exact .number finite
  | string s => exact .string s
  | array _ ih =>
    rw [document, documentItems_eq]
    exact .array (List.forall_mem_map.mpr ih)
  | object _ _ ih =>
    rw [document, documentMembers_eq]
    exact Json.proper_ofMembers (List.forall_mem_map.mpr ih)

/-- A plain value comes back from its document, but for the order of members. -/
theorem rearranged_ofJson (plain : Plain v) : Rearranged (ofJson v.document) v := by
  induction plain with
  | null => exact .null
  | boolean b => exact .boolean b
  | integer n =>
    rw [document, ofJson_ofInt64]
    exact .integer n
  | float finite =>
    rw [document, Json.ofFloat, if_pos finite]
    exact .float _
  | string s => exact .string s
  | @array items _ ih =>
    rw [document, ofJson, documentItems_eq, ofJsonItems_eq, List.map_map]
    refine .array (List.length_map _) fun i v w atV atW => ?_
    rw [List.getElem?_map, atW] at atV
    cases atV
    exact ih w (List.mem_of_getElem? atW)
  | @object members _ names ih =>
    -- The document has the same names, in order.
    obtain ⟨given, given_eq⟩ : ∃ given, given = documentMembers members := ⟨_, rfl⟩
    have same : given.map Prod.fst = members.map Prod.fst := by
      rw [given_eq, documentMembers_eq, List.map_map]
      rfl
    have perm : (Json.inOrder given).Perm given := Json.inOrder_perm (same ▸ names)
    have back : ofJson (document (.object members)) =
        .object (ofJsonMembers (Json.inOrder given)) := by
      rw [document, ← given_eq]
      exact ofJson_object (Json.ordered_inOrder given).nodup
    rw [back]
    refine .object ?_ fun name v w memV memW => ?_
    · rw [map_fst_ofJsonMembers, ← same]
      exact perm.map _
    · -- A name occurs once, so what comes back under it is what was there.
      rw [ofJsonMembers_eq] at memV
      obtain ⟨m, memJ, here⟩ := List.mem_map.mp memV
      have memGiven := perm.mem_iff.mp memJ
      rw [given_eq, documentMembers_eq] at memGiven
      obtain ⟨m', mem', rfl⟩ := List.mem_map.mp memGiven
      cases here
      have once : m' = (m'.1, w) := List.inj_on_of_nodup_map names mem' memW rfl
      have same' : m'.2 = w := congrArg Prod.snd once
      exact same' ▸ ih m' mem'

end Value

/-! ### The identity query -/

theorem Filter.parse_dot (maxDepth : Nat) : parse maxDepth "." = .ok (.select .identity) := by
  have parsed : parse 0 "." = .ok (.select .identity) :=
    (Parser.isChain_select_of_same (by decide +kernel)).parse_eq
  -- No mapping is in it, so that the limit does not matter.
  obtain ⟨whole, phrase⟩ := parse_eq_ok_iff.mp parsed
  exact parse_eq_ok_iff.mpr ⟨whole, phrase.mono (Nat.zero_le maxDepth)⟩

/-- On a closed value the identity gives that value. -/
theorem Evaluation.eval_identity {v : Value} (closed : v.isClosed = true) (n : Nat) :
    eval (n + 2) (.select .identity) v = pure v := by
  have noLink : v.kind ≠ .link := by
    cases v with
    | link id => cases closed
    | _ =>
      intro same
      cases same
  rw [eval_select noLink, select_identity noLink]

/-- The identity, applied to a document in good order, gives it back. -/
theorem Filter.applyToJson_identity {j : Json} (proper : j.Proper) :
    (Filter.select .identity).applyToJson j = .ok j.rounded := by
  have plain := Value.plain_ofJson proper
  have closed := Value.isClosed_ofJson j
  obtain ⟨n, n_eq⟩ : ∃ n, n = (Filter.select .identity).allowance (.ofJson j) := ⟨_, rfl⟩
  have large : (Value.ofJson j).depth < n + 2 := by
    rw [n_eq, Filter.allowance]
    omega
  have enough : (Filter.select .identity).allowance (.ofJson j) ≤ n + 2 := by omega
  have given := (Filter.select .identity).outcome_document j enough
  rw [Filter.document, Query.run, Evaluation.eval_identity closed, pure_bind,
    Evaluation.settle_of_closed ⟨closed, Nat.le_refl _⟩ large, pure_bind,
    Evaluation.toJson_of_plain plain large, Value.document_ofJson proper, Run.outcome_pure] at given
  exact (congrArg Prod.fst (Option.some.inj given)).symm

/-- The query `.`, applied to a document in good order, gives it back. -/
theorem Query.applyToJson_identity {j : Json} (maxDepth : Nat) (proper : j.Proper) :
    Query.applyToJson maxDepth "." j = .ok j.rounded := by
  unfold Query.applyToJson
  rw [Filter.parse_dot]
  exact congrArg (Except.mapError QueryError.evaluation) (Filter.applyToJson_identity proper)

namespace Json

open Run Evaluation

/-- A document comes back from its value, with the double that is nearest in place of each integer
that is too large for a signed one. A plain value has a document and comes back from it, but for the
order of members, so that it equals what comes back. Any text that is a document is one in good
order, and the query `.` gives that document, large integers as doubles. -/
theorem round_trip :
    (∀ (j : Json) (h : Host), j.Proper →
      Reaches (fun n => toJson n (.ofJson j)) h (.ok j.rounded) h) ∧
    (∀ n : UInt64, IsNearest (Float.ofNat n.toNat) n.toNat) ∧
    (∀ (v : Value) (h : Host), v.Plain →
      ∃ j, Reaches (fun n => toJson n v) h (.ok j) h ∧ j.Proper ∧
        (Value.ofJson j).Rearranged v ∧ (Value.ofJson j).same v = true) ∧
    ∀ (text : String) (j : Json) (maxDepth : Nat), parse text = .ok j →
      j.Proper ∧ CheckRequest.run ⟨".", some text, false, maxDepth⟩ = .ok (.output j.rounded) := by
  refine ⟨fun j h proper => ?_, isNearest_ofUInt64, fun v h plain => ?_, ?_⟩
  · have reached := reaches_toJson_of_plain (Value.plain_ofJson proper) h
    rw [Value.document_ofJson proper] at reached
    exact reached
  · have rearranged := Value.rearranged_ofJson plain
    exact ⟨v.document, reaches_toJson_of_plain plain h, plain.proper_document, rearranged,
      rearranged.same plain⟩
  · intro text j maxDepth parsed
    have proper := proper_of_parse parsed
    refine ⟨proper, ?_⟩
    rw [CheckRequest.run, if_neg Bool.false_ne_true]
    simp only [parsed, Query.applyToJson_identity maxDepth proper]

/-- The least integer that is too large for a signed one, and members out of order. -/
theorem round_trip_large :
    parse "[9223372036854775808]" = .ok (.array [.number (.natural 9223372036854775808)]) ∧
      CheckRequest.run ⟨".", some "[9223372036854775808]", false, 0⟩ =
        .ok (.output (.array [.number (.float (Float.ofNat 9223372036854775808))])) ∧
      ∀ h : Host,
        Reaches (fun n => toJson n (.ofJson (.array [.number (.natural 9223372036854775808)]))) h
          (.ok (.array [.number (.float (Float.ofNat 9223372036854775808))])) h ∧
        ∃ j, Reaches (fun n => toJson n (.object [("b", .integer 1), ("a", .null)])) h (.ok j) h ∧
          (Value.ofJson j).same (.object [("b", .integer 1), ("a", .null)]) = true := by
  have parsed : parse "[9223372036854775808]" =
      .ok (.array [.number (.natural 9223372036854775808)]) := by rfl
  have plain : (Value.object [("b", .integer 1), ("a", .null)]).Plain := by
    refine .object (fun m mem => ?_) (by decide)
    rcases List.mem_cons.mp mem with rfl | mem
    · exact .integer 1
    · rw [List.mem_singleton.mp mem]
      exact .null
  obtain ⟨proper, checked⟩ := round_trip.2.2.2 _ _ 0 parsed
  refine ⟨parsed, checked, fun h => ⟨round_trip.1 _ h proper, ?_⟩⟩
  obtain ⟨j, reached, -, -, same⟩ := round_trip.2.2.1 _ h plain
  exact ⟨j, reached, same⟩

end Json

end TreeQuery
