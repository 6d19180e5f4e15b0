import TreeQuery.Proofs.Evaluation.Rules
import TreeQuery.Proofs.Host.Footprint

/-!
# What a value comes down to

A value with streams in it stands for a closed value, provided that every stream in it ends, does
not fail, and is not reached a second time, be it from elsewhere in the value or from elements that
other streams give. The streams that belong to a value are its footprint; parts of a value have
disjoint footprints.

A stream is not known by its cursor but by what pulling it does: whatever host it is that agrees on
the footprint, a pull gives an element, which takes a part of the footprint with it.

## Main definitions

* `Evaluation.Holds` — what a value comes down to, with its footprint
* `Evaluation.Delivers` — what the elements of a stream come down to

## Main statements

* `Evaluation.Holds.of_sameOn` — a value is not affected outside of its footprint
* `Evaluation.Holds.reaches_settle` — settling a value gives what it comes down to
-/

namespace TreeQuery

namespace Evaluation

open Host Run

mutual

/-- In the host, `v` comes down to the closed value, and all streams that it may ever reach are in
`F`, or made when a stream in `F` is pulled. -/
def Holds (F : Set StreamId) (h : Host) (v : Value) : (content : Value) → Prop
  | .array ws =>
    (∃ vs, v = .array vs ∧ HoldsAll F h vs ws) ∨ ∃ id, v = .stream id ∧ Delivers F h id ws
  | .object ms => ∃ vs, v = .object vs ∧ HoldsMembers F h vs ms
  | .record type ws => ∃ vs, v = .record type vs ∧ HoldsAll F h vs ws
  | .link _ => False
  | .stream _ => False
  | w => v = w

/-- The same for the items of a list, which share no streams. -/
def HoldsAll (F : Set StreamId) (h : Host) (vs : List Value) : (contents : List Value) → Prop
  | [] => vs = []
  | w :: ws => ∃ v vs' F₁ F₂, vs = v :: vs' ∧ F₁ ∪ F₂ ⊆ F ∧ Disjoint F₁ F₂ ∧
      Holds F₁ h v w ∧ HoldsAll F₂ h vs' ws

/-- The same for named members. -/
def HoldsMembers (F : Set StreamId) (h : Host) (vs : List (String × Value)) :
    (contents : List (String × Value)) → Prop
  | [] => vs = []
  | (name, w) :: ms => ∃ v vs' F₁ F₂, vs = (name, v) :: vs' ∧ F₁ ∪ F₂ ⊆ F ∧ Disjoint F₁ F₂ ∧
      Holds F₁ h v w ∧ HoldsMembers F₂ h vs' ms

/-- However the host looks outside of `F`, pulls of the stream give elements that come down to the
closed values one after the other, and then none. Of the streams that `F` has become after a pull,
the element has some and the stream keeps others. -/
def Delivers (F : Set StreamId) (h : Host) (id : StreamId) : (contents : List Value) → Prop
  | [] => ∀ h₁, SameOn F h h₁ →
      ∃ h₂, Reaches (fun n => pull n id) h₁ (.ok none) h₂ ∧ Within F h₁ h₂
  | w :: ws => ∀ h₁, SameOn F h h₁ →
      ∃ v h₂ F₁ F₂, Reaches (fun n => pull n id) h₁ (.ok (some v)) h₂ ∧
        Moves F (F₁ ∪ F₂) h₁ h₂ ∧ Disjoint F₁ F₂ ∧ Holds F₁ h₂ v w ∧ Delivers F₂ h₂ id ws

end

variable {F G : Set StreamId} {h h' : Host} {id : StreamId} {v w : Value} {vs ws : List Value}
  {ms ms' : List (String × Value)}

/-! ### Footprints -/

theorem Delivers.of_sameOn (delivers : Delivers F h id ws) (same : SameOn F h h') :
    Delivers F h' id ws := by
  cases ws with
  | nil => exact fun h₁ same' => delivers h₁ (same.trans same')
  | cons w ws => exact fun h₁ same' => delivers h₁ (same.trans same')

mutual

/-- What a value comes down to, only its footprint decides. -/
theorem Holds.of_sameOn {F : Set StreamId} {h h' : Host} {v : Value} :
    ∀ {w : Value}, Holds F h v w → SameOn F h h' → Holds F h' v w
  | .array _, .inl ⟨vs, eq, all⟩, same => .inl ⟨vs, eq, all.of_sameOn same⟩
  | .array _, .inr ⟨id, eq, delivers⟩, same => .inr ⟨id, eq, delivers.of_sameOn same⟩
  | .object _, ⟨vs, eq, all⟩, same => ⟨vs, eq, all.of_sameOn same⟩
  | .record _ _, ⟨vs, eq, all⟩, same => ⟨vs, eq, all.of_sameOn same⟩
  | .null, eq, _ | .boolean _, eq, _ | .integer _, eq, _ | .float _, eq, _ | .string _, eq, _
  | .bytes _, eq, _ => eq

theorem HoldsAll.of_sameOn {F : Set StreamId} {h h' : Host} {vs : List Value} :
    ∀ {ws : List Value}, HoldsAll F h vs ws → SameOn F h h' → HoldsAll F h' vs ws
  | [], eq, _ => eq
  | _ :: _, ⟨v, vs', F₁, F₂, eq, sub, disjoint, holds, all⟩, same =>
    have ⟨sub₁, sub₂⟩ := Set.union_subset_iff.mp sub
    ⟨v, vs', F₁, F₂, eq, sub, disjoint, holds.of_sameOn (same.mono sub₁),
      all.of_sameOn (same.mono sub₂)⟩

theorem HoldsMembers.of_sameOn {F : Set StreamId} {h h' : Host} {vs : List (String × Value)} :
    ∀ {ms : List (String × Value)}, HoldsMembers F h vs ms → SameOn F h h' → HoldsMembers F h' vs ms
  | [], eq, _ => eq
  | _ :: _, ⟨v, vs', F₁, F₂, eq, sub, disjoint, holds, all⟩, same =>
    have ⟨sub₁, sub₂⟩ := Set.union_subset_iff.mp sub
    ⟨v, vs', F₁, F₂, eq, sub, disjoint, holds.of_sameOn (same.mono sub₁),
      all.of_sameOn (same.mono sub₂)⟩

end

theorem HoldsAll.mono (all : HoldsAll F h vs ws) (sub : F ⊆ G) : HoldsAll G h vs ws := by
  cases ws with
  | nil => exact all
  | cons w ws =>
    obtain ⟨v, vs', F₁, F₂, eq, sub', rest⟩ := all
    exact ⟨v, vs', F₁, F₂, eq, sub'.trans sub, rest⟩

theorem HoldsMembers.mono (all : HoldsMembers F h ms ms') (sub : F ⊆ G) :
    HoldsMembers G h ms ms' := by
  cases ms' with
  | nil => exact all
  | cons m ms' =>
    obtain ⟨v, vs', F₁, F₂, eq, sub', rest⟩ := all
    exact ⟨v, vs', F₁, F₂, eq, sub'.trans sub, rest⟩

theorem Delivers.mono (delivers : Delivers F h id ws) (sub : F ⊆ G) : Delivers G h id ws := by
  cases ws with
  | nil =>
    intro h₁ same
    obtain ⟨h₂, ends, within⟩ := delivers h₁ (same.mono sub)
    exact ⟨h₂, ends, within.mono sub⟩
  | cons w ws =>
    intro h₁ same
    obtain ⟨v, h₂, F₁, F₂, pulls, moves, rest⟩ := delivers h₁ (same.mono sub)
    exact ⟨v, h₂, F₁, F₂, pulls, moves.mono sub subset_rfl, rest⟩

theorem Holds.mono (holds : Holds F h v w) (sub : F ⊆ G) : Holds G h v w := by
  cases w with
  | array ws =>
    rcases holds with ⟨vs, eq, all⟩ | ⟨id, eq, delivers⟩
    · exact .inl ⟨vs, eq, all.mono sub⟩
    · exact .inr ⟨id, eq, delivers.mono sub⟩
  | object ms =>
    obtain ⟨vs, eq, all⟩ := holds
    exact ⟨vs, eq, all.mono sub⟩
  | record type ws =>
    obtain ⟨vs, eq, all⟩ := holds
    exact ⟨vs, eq, all.mono sub⟩
  | _ => exact holds

/-! ### Parts -/

mutual

theorem Holds.isClosed {F : Set StreamId} {h : Host} {v : Value} :
    ∀ {w : Value}, Holds F h v w → w.isClosed = true
  | .array _, .inl ⟨_, _, all⟩ => all.allClosed
  | .array _, .inr ⟨_, _, delivers⟩ => delivers.allClosed
  | .object _, ⟨_, _, all⟩ => all.allClosed
  | .record _ _, ⟨_, _, all⟩ => all.allClosed
  | .null, _ | .boolean _, _ | .integer _, _ | .float _, _ | .string _, _ | .bytes _, _ => rfl

theorem HoldsAll.allClosed {F : Set StreamId} {h : Host} {vs : List Value} :
    ∀ {ws : List Value}, HoldsAll F h vs ws → Value.allClosed ws = true
  | [], _ => rfl
  | _ :: _, ⟨_, _, _, _, _, _, _, holds, all⟩ =>
    Bool.and_eq_true_iff.mpr ⟨holds.isClosed, all.allClosed⟩

theorem HoldsMembers.allClosed {F : Set StreamId} {h : Host} {vs : List (String × Value)} :
    ∀ {ms : List (String × Value)}, HoldsMembers F h vs ms → Value.allMembersClosed ms = true
  | [], _ => rfl
  | _ :: _, ⟨_, _, _, _, _, _, _, holds, all⟩ =>
    Bool.and_eq_true_iff.mpr ⟨holds.isClosed, all.allClosed⟩

theorem Delivers.allClosed {F : Set StreamId} {h : Host} {id : StreamId} :
    ∀ {ws : List Value}, Delivers F h id ws → Value.allClosed ws = true
  | [], _ => rfl
  | _ :: _, delivers =>
    have ⟨_, _, _, _, _, _, _, holds, rest⟩ := delivers h (.refl F h)
    Bool.and_eq_true_iff.mpr ⟨holds.isClosed, rest.allClosed⟩

end

mutual

/-- Closed values come down to themselves. -/
theorem holds_of_isClosed {F : Set StreamId} {h : Host} :
    ∀ {w : Value}, w.isClosed = true → Holds F h w w
  | .array items, closed => .inl ⟨items, rfl, holdsAll_of_allClosed closed⟩
  | .object members, closed => ⟨members, rfl, holdsMembers_of_allClosed closed⟩
  | .record _ values, closed => ⟨values, rfl, holdsAll_of_allClosed closed⟩
  | .null, _ | .boolean _, _ | .integer _, _ | .float _, _ | .string _, _ | .bytes _, _ => rfl

theorem holdsAll_of_allClosed {F : Set StreamId} {h : Host} :
    ∀ {ws : List Value}, Value.allClosed ws = true → HoldsAll F h ws ws
  | [], _ => rfl
  | w :: ws, closed =>
    have ⟨first, rest⟩ := Bool.and_eq_true_iff.mp closed
    ⟨w, ws, ∅, ∅, rfl, by simp, disjoint_bot_left, holds_of_isClosed first,
      holdsAll_of_allClosed rest⟩

theorem holdsMembers_of_allClosed {F : Set StreamId} {h : Host} :
    ∀ {ms : List (String × Value)}, Value.allMembersClosed ms = true → HoldsMembers F h ms ms
  | [], _ => rfl
  | (_, w) :: ms, closed =>
    have ⟨first, rest⟩ := Bool.and_eq_true_iff.mp closed
    ⟨w, ms, ∅, ∅, rfl, by simp, disjoint_bot_left, holds_of_isClosed first,
      holdsMembers_of_allClosed rest⟩

end

mutual

/-- Closed values come down to nothing else. -/
theorem Holds.eq_of_isClosed {F : Set StreamId} {h : Host} {v : Value} :
    ∀ {w : Value}, Holds F h v w → v.isClosed = true → v = w
  | .array _, .inl ⟨_, eq, all⟩, closed => by
    subst eq
    rw [all.eq_of_allClosed closed]
  | .array _, .inr ⟨_, eq, _⟩, closed => by
    subst eq
    cases closed
  | .object _, ⟨_, eq, all⟩, closed => by
    subst eq
    rw [all.eq_of_allClosed closed]
  | .record _ _, ⟨_, eq, all⟩, closed => by
    subst eq
    rw [all.eq_of_allClosed closed]
  | .null, eq, _ | .boolean _, eq, _ | .integer _, eq, _ | .float _, eq, _ | .string _, eq, _
  | .bytes _, eq, _ => eq

theorem HoldsAll.eq_of_allClosed {F : Set StreamId} {h : Host} {vs : List Value} :
    ∀ {ws : List Value}, HoldsAll F h vs ws → Value.allClosed vs = true → vs = ws
  | [], eq, _ => eq
  | _ :: _, ⟨_, _, _, _, eq, _, _, holds, all⟩, closed => by
    subst eq
    have ⟨first, rest⟩ := Bool.and_eq_true_iff.mp closed
    rw [holds.eq_of_isClosed first, all.eq_of_allClosed rest]

theorem HoldsMembers.eq_of_allClosed {F : Set StreamId} {h : Host} {vs : List (String × Value)} :
    ∀ {ms : List (String × Value)}, HoldsMembers F h vs ms → Value.allMembersClosed vs = true →
      vs = ms
  | [], eq, _ => eq
  | _ :: _, ⟨_, _, _, _, eq, _, _, holds, all⟩, closed => by
    subst eq
    have ⟨first, rest⟩ := Bool.and_eq_true_iff.mp closed
    rw [holds.eq_of_isClosed first, all.eq_of_allClosed rest]

end

theorem HoldsAll.length_eq (all : HoldsAll F h vs ws) : vs.length = ws.length := by
  induction ws generalizing F vs with
  | nil => rw [show vs = [] from all]
  | cons w ws ih =>
    obtain ⟨v, vs', F₁, F₂, rfl, -, -, -, rest⟩ := all
    simp [ih rest]

theorem HoldsAll.take (all : HoldsAll F h vs ws) (k : Nat) :
    HoldsAll F h (vs.take k) (ws.take k) := by
  induction ws generalizing F vs k with
  | nil =>
    obtain rfl : vs = [] := all
    simp [HoldsAll]
  | cons w ws ih =>
    cases k with
    | zero => simp [HoldsAll]
    | succ k =>
      obtain ⟨v, vs', F₁, F₂, rfl, sub, disjoint, holds, rest⟩ := all
      exact ⟨v, vs'.take k, F₁, F₂, rfl, sub, disjoint, holds, ih rest k⟩

theorem HoldsAll.drop (all : HoldsAll F h vs ws) (k : Nat) :
    HoldsAll F h (vs.drop k) (ws.drop k) := by
  induction ws generalizing F vs k with
  | nil =>
    obtain rfl : vs = [] := all
    simp [HoldsAll]
  | cons w ws ih =>
    cases k with
    | zero => exact all
    | succ k =>
      obtain ⟨v, vs', F₁, F₂, rfl, sub, -, -, rest⟩ := all
      exact (ih rest k).mono (Set.union_subset_iff.mp sub).2

/-- At every position there is an item with its content, or neither. -/
theorem HoldsAll.getElem? (all : HoldsAll F h vs ws) (i : Nat) :
    (vs[i]? = none ∧ ws[i]? = none) ∨ ∃ v w, vs[i]? = some v ∧ ws[i]? = some w ∧ Holds F h v w := by
  induction ws generalizing F vs i with
  | nil =>
    obtain rfl : vs = [] := all
    simp
  | cons w ws ih =>
    obtain ⟨v, vs', F₁, F₂, rfl, sub, -, holds, rest⟩ := all
    have ⟨sub₁, sub₂⟩ := Set.union_subset_iff.mp sub
    cases i with
    | zero => exact .inr ⟨v, w, rfl, rfl, holds.mono sub₁⟩
    | succ i =>
      simp only [List.getElem?_cons_succ]
      rcases ih rest i with missing | ⟨v', w', at_i, at_i', holds'⟩
      · exact .inl missing
      · exact .inr ⟨v', w', at_i, at_i', holds'.mono sub₂⟩

/-- A name finds a member with its content, or neither. -/
theorem HoldsMembers.lookup (all : HoldsMembers F h ms ms') (name : String) :
    (ms.lookup name = none ∧ ms'.lookup name = none) ∨
      ∃ v w, ms.lookup name = some v ∧ ms'.lookup name = some w ∧ Holds F h v w := by
  induction ms' generalizing F ms with
  | nil =>
    obtain rfl : ms = [] := all
    simp
  | cons m ms' ih =>
    obtain ⟨first, w⟩ := m
    obtain ⟨v, vs', F₁, F₂, rfl, sub, -, holds, rest⟩ := all
    have ⟨sub₁, sub₂⟩ := Set.union_subset_iff.mp sub
    simp only [List.lookup_cons]
    split
    · exact .inr ⟨v, _, rfl, rfl, holds.mono sub₁⟩
    · rcases ih rest with missing | ⟨v', w', found, found', holds'⟩
      · exact .inl missing
      · exact .inr ⟨v', w', found, found', holds'.mono sub₂⟩

theorem HoldsAll.slice (all : HoldsAll F h vs ws) (s : Slice) :
    HoldsAll F h (s.apply vs) (s.apply ws) := by
  simp only [Slice.apply, all.length_eq]
  exact (all.take _).drop _

/-- A value has the kind of what it comes down to, or is a stream in place of an array. -/
theorem Holds.kind_eq (holds : Holds F h v w) :
    w.kind ≠ .link ∧ w.kind ≠ .stream ∧ (v.kind = w.kind ∨ v.kind = .stream ∧ w.kind = .array) := by
  cases w with
  | array ws =>
    rcases holds with ⟨vs, rfl, -⟩ | ⟨id, rfl, -⟩
    · exact ⟨nofun, nofun, .inl rfl⟩
    · exact ⟨nofun, nofun, .inr ⟨rfl, rfl⟩⟩
  | object ms =>
    obtain ⟨vs, rfl, -⟩ := holds
    exact ⟨nofun, nofun, .inl rfl⟩
  | record type ws =>
    obtain ⟨vs, rfl, -⟩ := holds
    exact ⟨nofun, nofun, .inl rfl⟩
  | link id => exact holds.elim
  | stream id => exact holds.elim
  | _ =>
    obtain rfl : v = _ := holds
    exact ⟨nofun, nofun, .inl rfl⟩

theorem Holds.kind_ne_link (holds : Holds F h v w) : v.kind ≠ .link := by
  obtain ⟨noLink, -, same | ⟨stream, -⟩⟩ := holds.kind_eq
  · exact same ▸ noLink
  · exact fun link => nomatch stream.symm.trans link

/-- What a name finds in a value comes down to what it finds in the content. -/
theorem Holds.member (holds : Holds F h v w) (noStream : v.kind ≠ .stream) (name : String) :
    Holds F h ((v.member? name).getD .null) ((w.member? name).getD .null) := by
  cases w with
  | array ws =>
    rcases holds with ⟨vs, rfl, -⟩ | ⟨id, rfl, -⟩
    · rfl
    · exact absurd rfl noStream
  | object ms =>
    obtain ⟨vs, rfl, all⟩ := holds
    rcases all.lookup name with ⟨missing, missing'⟩ | ⟨v', w', found, found', holds'⟩
    · simp only [Value.member?, missing, missing']
      rfl
    · simpa only [Value.member?, found, found', Option.getD_some] using holds'
  | record type ws =>
    obtain ⟨vs, rfl, all⟩ := holds
    simp only [Value.member?]
    cases type.fieldIndex? name with
    | none => rfl
    | some i =>
      rcases all.getElem? i with ⟨missing, missing'⟩ | ⟨v', w', found, found', holds'⟩
      · simp only [Option.bind_some, missing, missing']
        rfl
      · simpa only [Option.bind_some, found, found', Option.getD_some] using holds'
  | link id => exact holds.elim
  | stream id => exact holds.elim
  | _ =>
    obtain rfl : v = _ := holds
    rfl

/-! ### Settling -/

/-- The first one does not touch the streams of the others, so that these have their turns as if it
had not been there. -/
theorem inTurn_cons_within {α β : Type} {run : α → (allowance : Nat) → Evaluation β} {a : α}
    {as : List α} {b : β} {bs : List β} {F₁ F₂ : Set StreamId} (sub : F₁ ∪ F₂ ⊆ F)
    (disjoint : Disjoint F₁ F₂) (covers : h.Covers F)
    (first : ∃ h₁, Reaches (run a) h (.ok b) h₁ ∧ Within F₁ h h₁)
    (others : ∀ h₁, SameOn F₂ h h₁ → h₁.Covers F₂ →
      ∃ h₂, InTurn run as h₁ (.ok bs) h₂ ∧ Within F₂ h₁ h₂) :
    ∃ h₂, InTurn run (a :: as) h (.ok (b :: bs)) h₂ ∧ Within F h h₂ := by
  obtain ⟨sub₁, sub₂⟩ := Set.union_subset_iff.mp sub
  obtain ⟨h₁, reached, within⟩ := first
  have same := within.sameOn disjoint (covers.mono sub₂)
  obtain ⟨h₂, turns, within'⟩ := others h₁ same (same.covers (covers.mono sub₂))
  have moves : Moves F F₂ h h₁ := (within.mono sub₁).moves sub₂
  exact ⟨h₂, .value reached turns, moves.within_trans within'⟩

mutual

/-- Settling a value gives what it comes down to. -/
theorem Holds.reaches_settle {F : Set StreamId} {h : Host} {v w : Value} (holds : Holds F h v w)
    (covers : h.Covers F) : ∃ h', Reaches (fun n => settle n v) h (.ok w) h' ∧ Within F h h' := by
  match w, holds with
  | .array ws, .inl ⟨vs, eq, all⟩ =>
    subst eq
    obtain ⟨h', turns, within⟩ := all.inTurn_settle covers
    exact ⟨h', reaches_settle_array turns, within⟩
  | .array ws, .inr ⟨id, eq, delivers⟩ =>
    subst eq
    obtain ⟨h', drains, within⟩ := delivers.reaches_drain covers
    exact ⟨h', reaches_settle_stream drains, within⟩
  | .object ms, ⟨vs, eq, all⟩ =>
    subst eq
    obtain ⟨h', turns, within⟩ := all.inTurn_settle covers
    exact ⟨h', reaches_settle_object turns, within⟩
  | .record type ws, ⟨vs, eq, all⟩ =>
    subst eq
    obtain ⟨h', turns, within⟩ := all.inTurn_settle covers
    exact ⟨h', reaches_settle_record turns, within⟩
  | .null, eq | .boolean _, eq | .integer _, eq | .float _, eq | .string _, eq | .bytes _, eq =>
    obtain rfl := eq
    exact ⟨h, ⟨1, rfl⟩, .refl F h⟩

theorem HoldsAll.inTurn_settle {F : Set StreamId} {h : Host} {vs ws : List Value}
    (all : HoldsAll F h vs ws) (covers : h.Covers F) :
    ∃ h', InTurn (fun v n => settle n v) vs h (.ok ws) h' ∧ Within F h h' := by
  match ws, all with
  | [], eq =>
    obtain rfl := eq
    exact ⟨h, .nil h, .refl F h⟩
  | w :: ws, ⟨v, vs', F₁, F₂, eq, sub, disjoint, holds, rest⟩ =>
    subst eq
    have ⟨sub₁, _⟩ := Set.union_subset_iff.mp sub
    exact inTurn_cons_within sub disjoint covers (holds.reaches_settle (covers.mono sub₁))
      fun _ same covers₂ => (rest.of_sameOn same).inTurn_settle covers₂

theorem HoldsMembers.inTurn_settle {F : Set StreamId} {h : Host} {vs ms : List (String × Value)}
    (all : HoldsMembers F h vs ms) (covers : h.Covers F) :
    ∃ h', InTurn settleMember vs h (.ok ms) h' ∧ Within F h h' := by
  match ms, all with
  | [], eq =>
    obtain rfl := eq
    exact ⟨h, .nil h, .refl F h⟩
  | (name, w) :: ms, ⟨v, vs', F₁, F₂, eq, sub, disjoint, holds, rest⟩ =>
    subst eq
    have ⟨sub₁, _⟩ := Set.union_subset_iff.mp sub
    obtain ⟨h₁, first, within⟩ := holds.reaches_settle (covers.mono sub₁)
    exact inTurn_cons_within sub disjoint covers ⟨h₁, reaches_settleMember first, within⟩
      fun _ same covers₂ => (rest.of_sameOn same).inTurn_settle covers₂

theorem Delivers.reaches_drain {F : Set StreamId} {h : Host} {id : StreamId} {ws : List Value}
    (delivers : Delivers F h id ws) (covers : h.Covers F) :
    ∃ h', Reaches (fun n => drain n id) h (.ok ws) h' ∧ Within F h h' := by
  match ws, delivers with
  | [], delivers =>
    obtain ⟨h', ends, within⟩ := delivers h (.refl F h)
    exact ⟨h', reaches_drain_none ends, within⟩
  | w :: ws, delivers =>
    obtain ⟨v, h₁, F₁, F₂, pulls, moves, disjoint, holds, rest⟩ := delivers h (.refl F h)
    obtain ⟨covers₁, covers₂⟩ := covers_union_iff.mp (moves.covers covers)
    obtain ⟨h₂, settles, within⟩ := holds.reaches_settle covers₁
    -- Settling the element does not touch the streams that the stream has kept.
    have same := within.sameOn disjoint covers₂
    obtain ⟨h₃, drains, within'⟩ := (rest.of_sameOn same).reaches_drain (same.covers covers₂)
    have moves' := moves.trans ((within.mono Set.subset_union_left).moves Set.subset_union_right)
    exact ⟨h₃, reaches_drain_some pulls settles drains, moves'.within_trans within'⟩

end

end Evaluation

end TreeQuery
