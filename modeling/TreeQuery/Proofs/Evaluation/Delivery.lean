import TreeQuery.Proofs.Evaluation.Content
import TreeQuery.Proofs.Evaluation.Providing

/-!
# Streams that deliver

A stream delivers closed values if it provides elements that come down to these, and does not fail.
So a source that lists its elements delivers what they come down to, a stream of transformed
elements what the transform makes of them, and a slice of a stream the slice of what the stream
delivers.

## Main definitions

* `Evaluation.Gives` — what an evaluation gives, which comes down to a closed value

## Main statements

* `Evaluation.delivers_iff` — to deliver is to provide what comes down to closed values
* `Evaluation.delivers_of_listed` — sources that list their elements
* `Evaluation.delivers_of_mapped` — transformed streams
* `Evaluation.delivers_of_sliced` — slices of streams
-/

namespace TreeQuery

namespace Evaluation

open Host Run

/-- The evaluation gives a value that comes down to the closed value. It moves streams of the
footprint alone, and the value takes what has become of them. -/
def Gives (r : (allowance : Nat) → Evaluation Value) (F : Set StreamId) (h : Host) (w : Value) :
    Prop :=
  ∃ v h' G, Reaches r h (.ok v) h' ∧ Moves F G h h' ∧ Holds G h' v w

variable {F : Set StreamId} {h : Host} {id feed : StreamId} {v w : Value} {vs ws : List Value}

theorem local_holds : Local Holds := fun _ _ _ _ _ holds same => holds.of_sameOn same

theorem holdsAll_iff : HoldsAll F h vs ws ↔ Apportioned Holds F h vs ws := by
  induction ws generalizing F vs with
  | nil => exact .rfl
  | cons w ws ih => simp only [HoldsAll, Apportioned, ih]

/-- What a stream delivers, it provides without a failure. -/
theorem delivers_iff : Delivers F h id ws ↔ Provides Holds F h id false ws := by
  induction ws generalizing F h with
  | nil => exact .rfl
  | cons w ws ih => simp only [Delivers, Provides, ih]

theorem Gives.of_succ {r r' : (allowance : Nat) → Evaluation Value} (gives : Gives r F h w)
    (same : ∀ n, r' (n + 1) = r n) : Gives r' F h w := by
  obtain ⟨v, h', G, reached, rest⟩ := gives
  rw [← funext same] at reached
  exact ⟨v, h', G, reached.of_succ, rest⟩

/-- An evaluation followed by another one, which only has to go on from what it gives. -/
theorem Gives.bind {r : (allowance : Nat) → Evaluation Value}
    {f : (allowance : Nat) → Value → Evaluation Value} {w' : Value} (gives : Gives r F h w)
    (covers : h.Covers F) (steady : Steady r) (steady' : ∀ v, Steady fun n => f n v)
    (goesOn : ∀ {F h v}, h.Covers F → Holds F h v w → Gives (fun n => f n v) F h w') :
    Gives (fun n => r n >>= f n) F h w' := by
  obtain ⟨v, h₁, G, reached, moves, holds⟩ := gives
  obtain ⟨v', h₂, G', reached', moves', holds'⟩ := goesOn (moves.covers covers) holds
  exact ⟨v', h₂, G', reached.bind reached' steady (steady' v), moves.trans moves', holds'⟩

/-- A value that is at hand gives itself. -/
theorem gives_of_reaches {r : (allowance : Nat) → Evaluation Value}
    (reached : Reaches r h (.ok v) h)
    (holds : Holds F h v w) : Gives r F h w :=
  ⟨v, h, F, reached, (Within.refl F h).moves subset_rfl, holds⟩

/-- A source that lists elements delivers what these come down to, provided that it is not one of
their streams. -/
theorem delivers_of_listed {s : Source} (outside : id ∉ F) (covers : h.Covers F)
    (found : h.streams[id.index]? = some ⟨.source s, false⟩)
    (listed : s.supply = .listed (vs.map .element)) (all : HoldsAll F h vs ws) :
    Delivers (F ∪ {id}) h id ws := by
  rw [← List.append_nil (vs.map _)] at listed
  exact delivers_iff.mpr
    (provides_of_listed local_holds outside covers found listed rfl (holdsAll_iff.mp all))

/-- A stream of transformed elements delivers what the transform makes of them. -/
theorem delivers_of_mapped {t : Transform} {g : Value → Value} (outside : id ∉ F)
    (covers : h.Covers F) (found : h.streams[id.index]? = some ⟨.mapped feed t, false⟩)
    (delivers : Delivers F h feed ws)
    (each : ∀ w ∈ ws, ∀ {F h v}, h.Covers F → Holds F h v w →
      Gives (fun n => transform n t v) F h (g w)) :
    Delivers (F ∪ {id}) h id (ws.map g) := by
  have made : Made (Transforms Holds Holds t) false ws (ws.map g) false :=
    made_map fun w mem _ _ _ holds covers => each w mem covers holds
  exact delivers_iff.mpr
    (provides_of_mapped local_holds made outside covers found (delivers_iff.mp delivers))

/-- The same for the items of a list, one after the other. -/
theorem HoldsAll.inTurn {r : Value → (allowance : Nat) → Evaluation Value} {g : Value → Value}
    (all : HoldsAll F h vs ws) (covers : h.Covers F)
    (each : ∀ w ∈ ws, ∀ {F h v}, h.Covers F → Holds F h v w → Gives (r v) F h (g w)) :
    ∃ vs' h' G, InTurn r vs h (.ok vs') h' ∧ Moves F G h h' ∧ HoldsAll G h' vs' (ws.map g) := by
  have brings : List.Forall₂ (Brings Holds Holds r) ws (ws.map g) :=
    List.forall₂_map_right_iff.mpr <| List.forall₂_same.mpr
      fun w mem _ _ _ holds covers => each w mem covers holds
  simp only [holdsAll_iff] at all ⊢
  exact all.inTurn local_holds local_holds covers brings

/-- A slice of a stream delivers the slice of what the stream delivers. -/
theorem delivers_of_sliced {s : Slice} (part : s.all = false) (outside : id ∉ F)
    (covers : h.Covers F) (found : h.streams[id.index]? = some ⟨.sliced feed s s.stop 0, false⟩)
    (delivers : Delivers F h feed ws) : Delivers (F ∪ {id}) h id (s.apply ws) := by
  rw [← Slice.upcoming_eq_apply part]
  exact delivers_iff.mpr
    (provides_of_sliced local_holds outside covers found (delivers_iff.mp delivers))

end Evaluation

end TreeQuery
