import TreeQuery.Proofs.Evaluation.Rules
import TreeQuery.Proofs.Run.Meets

/-!
# Settled values

A value is settled when no stream is left in it. Settling gives settled values, whatever the host
does meanwhile, and has nothing to do on them. Links may be left: they are not looked into.

## Main definitions

* `Value.SettledWithin`, `Value.Settled` — values without streams

## Main statements

* `Value.induction_parts` — induction on how a value is made of its parts
* `Evaluation.settle_meets` — settling gives a settled value
* `Evaluation.settle_of_settled` — and leaves settled values as they are
-/

namespace TreeQuery

namespace Value

/-- No stream is left in the value, and its parts stand at most `d` deep inside each other. -/
def SettledWithin : (d : Nat) → Value → Prop
  | _, .stream _ => False
  | 0, .array _ => False
  | 0, .object _ => False
  | 0, .record .. => False
  | d + 1, .array items => ∀ v ∈ items, SettledWithin d v
  | d + 1, .object members => ∀ m ∈ members, SettledWithin d m.2
  | d + 1, .record _ values => ∀ v ∈ values, SettledWithin d v
  | _, _ => True

/-- No stream is left in the value. -/
def Settled (v : Value) : Prop := ∃ d, SettledWithin d v

theorem SettledWithin.mono {d d' : Nat} {v : Value} (h : SettledWithin d v) (le : d ≤ d') :
    SettledWithin d' v := by
  induction d generalizing d' v with
  | zero =>
    cases v <;> first | exact h.elim | (cases d' <;> trivial)
  | succ d ih =>
    obtain ⟨d', rfl⟩ : ∃ k, d' = k + 1 := ⟨d' - 1, by omega⟩
    have below : d ≤ d' := by omega
    cases v with
    | array items => exact fun v mem => ih (h v mem) below
    | object members => exact fun m mem => ih (h m mem) below
    | record type values => exact fun v mem => ih (h v mem) below
    | stream id => exact h.elim
    | _ => trivial

/-- Several settled values have a depth in common. -/
theorem exists_settledWithin {α : Type} {f : α → Value} {as : List α}
    (h : ∀ a ∈ as, Settled (f a)) : ∃ d, ∀ a ∈ as, SettledWithin d (f a) := by
  induction as with
  | nil => exact ⟨0, fun _ mem => nomatch mem⟩
  | cons a as ih =>
    obtain ⟨d, first⟩ := h a (List.mem_cons_self ..)
    obtain ⟨d', rest⟩ := ih fun a' mem => h a' (List.mem_cons_of_mem _ mem)
    refine ⟨max d d', List.forall_mem_cons.mpr ⟨first.mono (Nat.le_max_left d d'), ?_⟩⟩
    exact fun a' mem => (rest a' mem).mono (Nat.le_max_right d d')

theorem settled_array {items : List Value} (h : ∀ v ∈ items, Settled v) :
    Settled (.array items) := by
  obtain ⟨d, within⟩ := exists_settledWithin (f := id) h
  exact ⟨d + 1, within⟩

theorem settled_object {members : List (String × Value)} (h : ∀ m ∈ members, Settled m.2) :
    Settled (.object members) := by
  obtain ⟨d, within⟩ := exists_settledWithin (f := Prod.snd) h
  exact ⟨d + 1, within⟩

theorem settled_record {type : RecordType} {values : List Value} (h : ∀ v ∈ values, Settled v) :
    Settled (.record type values) := by
  obtain ⟨d, within⟩ := exists_settledWithin (f := id) h
  exact ⟨d + 1, within⟩

/-- Arrays, objects and records are made of their parts. Streams and values without parts remain. -/
theorem induction_parts {motive : Value → Prop}
    (array : ∀ vs, (∀ v ∈ vs, motive v) → motive (.array vs))
    (object : ∀ ms, (∀ m ∈ ms, motive m.2) → motive (.object ms))
    (record : ∀ type vs, (∀ v ∈ vs, motive v) → motive (.record type vs))
    (stream : ∀ id, motive (.stream id)) (plain : ∀ v, v.SettledWithin 0 → motive v) (v : Value) :
    motive v := by
  have bounded (d : Nat) : ∀ v : Value, v.depth ≤ d → motive v := by
    induction d with
    | zero =>
      intro v shallow
      cases v with
      | array vs => exact absurd shallow (Nat.not_succ_le_zero _)
      | object ms => exact absurd shallow (Nat.not_succ_le_zero _)
      | record type vs => exact absurd shallow (Nat.not_succ_le_zero _)
      | stream id => exact stream id
      | _ => exact plain _ trivial
    | succ d ih =>
      intro v shallow
      cases v with
      | array vs =>
        have below := itemsDepth_le_iff.mp (Nat.le_of_succ_le_succ shallow)
        exact array vs fun v mem => ih v (below v mem)
      | object ms =>
        have below := membersDepth_le_iff.mp (Nat.le_of_succ_le_succ shallow)
        exact object ms fun m mem => ih m.2 (below m mem)
      | record type vs =>
        have below := itemsDepth_le_iff.mp (Nat.le_of_succ_le_succ shallow)
        exact record type vs fun v mem => ih v (below v mem)
      | stream id => exact stream id
      | _ => exact plain _ trivial
  exact bounded v.depth v (Nat.le_refl _)

end Value

namespace Evaluation

open Run Value

/-- What settling gives, with one and the same allowance. -/
structure Settles (n : Nat) : Prop where
  settle : ∀ v h, Meets (settle n v) h (fun w _ => Settled w) fun _ => True
  drain : ∀ id h, Meets (drain n id) h (fun ws _ => ∀ w ∈ ws, Settled w) fun _ => True

theorem Settles.settle_succ {n : Nat} (ih : Settles n) (v : Value) (h : Host) :
    Meets (Evaluation.settle (n + 1) v) h (fun w _ => Settled w) fun _ => True := by
  unfold Evaluation.settle
  split
  · exact (ih.drain _ h).bind fun ws _ settled => meets_pure (settled_array settled)
  · refine (meets_mapM fun item _ h => ih.settle item h).bind fun ws _ settled => ?_
    exact meets_pure (settled_array settled)
  · have each (m : String × Value) (h : Host) :
        Meets (do return (m.1, ← Evaluation.settle n m.2) : Evaluation (String × Value)) h
          (fun m' _ => Settled m'.2) fun _ => True :=
      (ih.settle m.2 h).bind fun w _ settled => meets_pure settled
    refine (meets_mapM fun m _ h => each m h).bind fun ms _ settled => ?_
    exact meets_pure (settled_object settled)
  · refine (meets_mapM fun item _ h => ih.settle item h).bind fun ws _ settled => ?_
    exact meets_pure (settled_record settled)
  · next noStream noArray noObject noRecord =>
    -- The other values have no parts.
    refine meets_pure ⟨0, ?_⟩
    cases v <;> simp_all [SettledWithin]

theorem Settles.drain_succ {n : Nat} (ih : Settles n) (id : StreamId) (h : Host) :
    Meets (Evaluation.drain (n + 1) id) h (fun ws _ => ∀ w ∈ ws, Settled w) fun _ => True := by
  unfold Evaluation.drain
  refine meets_any.bind fun taken h' _ => ?_
  split
  · exact meets_pure fun _ mem => nomatch mem
  · refine (ih.settle _ h').bind fun w h'' settled => ?_
    refine (ih.drain id h'').bind fun ws _ rest => ?_
    exact meets_pure (List.forall_mem_cons.mpr ⟨settled, rest⟩)

theorem settles_all (n : Nat) : Settles n := by
  induction n with
  | zero => exact ⟨fun _ _ => meets_cutOff, fun _ _ => meets_cutOff⟩
  | succ n ih => exact ⟨ih.settle_succ, ih.drain_succ⟩

/-- Settling gives a settled value. -/
theorem settle_meets (n : Nat) (v : Value) (h : Host) :
    Meets (settle n v) h (fun w _ => Settled w) fun _ => True :=
  (settles_all n).settle v h

theorem settle_of_settledWithin {n d : Nat} {v : Value} (settled : SettledWithin d v) (hn : d < n) :
    settle n v = pure v := by
  induction n generalizing d v with
  | zero => omega
  | succ n ih =>
    have below {d'} (h : d = d' + 1) : d' < n := by omega
    unfold settle
    split
    · exact absurd settled (by simp [SettledWithin])
    · cases d with
      | zero => exact settled.elim
      | succ d => rw [mapM_eq_pure fun item mem => ih (settled item mem) (below rfl), pure_bind]
    · cases d with
      | zero => exact settled.elim
      | succ d =>
        rw [mapM_eq_pure fun m mem => by simp [ih (settled m mem) (below rfl)], pure_bind]
    · cases d with
      | zero => exact settled.elim
      | succ d => rw [mapM_eq_pure fun v mem => ih (settled v mem) (below rfl), pure_bind]
    · rfl

/-- Settled values stay as they are, with any allowance that is large enough. -/
theorem settle_of_settled {v : Value} (settled : Settled v) :
    ∃ n, ∀ m, n ≤ m → settle m v = pure v := by
  obtain ⟨d, within⟩ := settled
  exact ⟨d + 1, fun m le => settle_of_settledWithin within le⟩

/-- Settling a settled value comes to that value, and nothing happens. -/
theorem reaches_settle_of_settled {v : Value} (settled : Settled v) {h h' : Host}
    {result : Except EvalError Value} :
    Reaches (fun n => settle n v) h result h' ↔ result = .ok v ∧ h' = h := by
  obtain ⟨n, stays⟩ := settle_of_settled settled
  constructor
  · intro reached
    obtain ⟨m, le, ho⟩ := reached.of_le (steady_settle v) n
    rw [stays m le] at ho
    cases ho
    exact ⟨rfl, rfl⟩
  · rintro ⟨rfl, rfl⟩
    refine ⟨n, ?_⟩
    dsimp only
    rw [stays n (Nat.le_refl n)]
    rfl

end Evaluation

end TreeQuery
