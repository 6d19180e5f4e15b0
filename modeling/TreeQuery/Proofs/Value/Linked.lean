import Mathlib.Data.List.Forall2
import TreeQuery.Host
import TreeQuery.Proofs.Evaluation.Settled
import TreeQuery.Value.Closed

/-!
# Values with links that stand for values

A link may lead to one value whenever it is resolved. Where all links of a value do so, and those of
their targets too, the value stands for a closed one: what is left when every link gives way to its
target. Putting such links in the place of parts of a value makes no difference to that.

## Main definitions

* `LeadsTo` — a link always gives the same value
* `Value.Stands` — the closed value that is left when links are followed
* `Value.Relinked` — some parts of a value have given way to links to them

## Main statements

* `Value.Relinked.exists_stands` — links in place of parts leave the closed value as it is
-/

namespace TreeQuery

/-- Every resolution of the link gives this value. -/
def LeadsTo (links : Array Resolver) (id : LinkId) (v : Value) : Prop :=
  ∃ label, links[id.index]? = some ⟨label, .give v, []⟩

namespace Value

/-- The first value has no streams, its links lead to values of the same kind, and following them
leaves the second one. -/
inductive Stands (links : Array Resolver) : Value → Value → Prop
  | flat {v : Value} (closed : v.ClosedWithin 0) : Stands links v v
  | array {vs us : List Value} (length : vs.length = us.length)
      (items : ∀ p ∈ vs.zip us, Stands links p.1 p.2) : Stands links (.array vs) (.array us)
  | object {vs us : List (String × Value)} (length : vs.length = us.length)
      (names : ∀ p ∈ vs.zip us, p.1.1 = p.2.1)
      (members : ∀ p ∈ vs.zip us, Stands links p.1.2 p.2.2) :
      Stands links (.object vs) (.object us)
  | record {type : RecordType} {vs us : List Value} (length : vs.length = us.length)
      (values : ∀ p ∈ vs.zip us, Stands links p.1 p.2) :
      Stands links (.record type vs) (.record type us)
  | link {id : LinkId} {v u : Value} (leads : LeadsTo links id v) (target : Stands links v u) :
      Stands links (.link id) u

/-- The second value comes from the first one by putting links in the place of parts, at any depth
and in the targets of links too. -/
inductive Relinked (links : Array Resolver) : Value → Value → Prop
  | flat {v : Value} (closed : v.ClosedWithin 0) : Relinked links v v
  | array {vs ws : List Value} (length : vs.length = ws.length)
      (items : ∀ p ∈ vs.zip ws, Relinked links p.1 p.2) : Relinked links (.array vs) (.array ws)
  | object {vs ws : List (String × Value)} (length : vs.length = ws.length)
      (names : ∀ p ∈ vs.zip ws, p.1.1 = p.2.1)
      (members : ∀ p ∈ vs.zip ws, Relinked links p.1.2 p.2.2) :
      Relinked links (.object vs) (.object ws)
  | record {type : RecordType} {vs ws : List Value} (length : vs.length = ws.length)
      (values : ∀ p ∈ vs.zip ws, Relinked links p.1 p.2) :
      Relinked links (.record type vs) (.record type ws)
  /-- A link to a value gives way to a link to what comes from that value. -/
  | target {id id' : LinkId} {v w : Value} (leads : LeadsTo links id v)
      (leads' : LeadsTo links id' w) (target : Relinked links v w) :
      Relinked links (.link id) (.link id')
  /-- A part gives way to a link to what comes from it. -/
  | wrap {id : LinkId} {v w : Value} (part : Relinked links v w) (leads : LeadsTo links id w) :
      Relinked links v (.link id)

variable {links : Array Resolver} {v w u : Value}

/-! ### Parts -/

/-- The parts of arrays stand for each other, position by position. -/
def StandAll (links : Array Resolver) : List Value → List Value → Prop :=
  List.Forall₂ (Stands links)

/-- A member stands for one of the same name. -/
def MemberStands (links : Array Resolver) (m m' : String × Value) : Prop :=
  m.1 = m'.1 ∧ Stands links m.2 m'.2

/-- Members stand for each other, position by position. -/
def StandMembers (links : Array Resolver) :
    List (String × Value) → List (String × Value) → Prop :=
  List.Forall₂ (MemberStands links)

theorem stands_array {vs us : List Value} (items : StandAll links vs us) :
    Stands links (.array vs) (.array us) :=
  .array items.length_eq fun _ mem => (List.forall₂_iff_zip.mp items).2 mem

theorem stands_record {type : RecordType} {vs us : List Value} (values : StandAll links vs us) :
    Stands links (.record type vs) (.record type us) :=
  .record values.length_eq fun _ mem => (List.forall₂_iff_zip.mp values).2 mem

theorem stands_object {vs us : List (String × Value)} (members : StandMembers links vs us) :
    Stands links (.object vs) (.object us) :=
  have zipped {m m'} (mem : (m, m') ∈ vs.zip us) := (List.forall₂_iff_zip.mp members).2 mem
  .object members.length_eq (fun _ mem => (zipped mem).1) fun _ mem => (zipped mem).2

theorem StandMembers.putMember {vs us : List (String × Value)} (h : StandMembers links vs us)
    (name : String) {v u : Value} (stands : Stands links v u) :
    StandMembers links (putMember name v vs) (putMember name u us) := by
  induction h with
  | nil => exact .cons ⟨rfl, stands⟩ .nil
  | @cons m m' _ _ first rest ih =>
    obtain ⟨same, _⟩ := first
    rw [TreeQuery.putMember, TreeQuery.putMember, ← same]
    split
    · exact .cons ⟨rfl, stands⟩ rest
    · exact .cons ⟨rfl, ‹_›⟩ ih

theorem StandMembers.foldl_putMember {given given' collected collected' : List (String × Value)}
    (all : StandMembers links given given') (before : StandMembers links collected collected') :
    StandMembers links
      (given.foldl (fun ms (name, member) => TreeQuery.putMember name member ms) collected)
      (given'.foldl (fun ms (name, member) => TreeQuery.putMember name member ms) collected') := by
  induction all generalizing collected collected' with
  | nil => exact before
  | @cons m m' _ _ first _ ih =>
    obtain ⟨same, stands⟩ := first
    simp only [List.foldl_cons, ← same]
    exact ih (before.putMember m.1 stands)

/-- Members given one after the other stand for each other if those that are given do. -/
theorem stands_ofMembers {given given' : List (String × Value)}
    (all : StandMembers links given given') :
    Stands links (ofMembers given) (ofMembers given') :=
  stands_object (all.foldl_putMember .nil)

/-- Lists of one length are related entry by entry if their pairs are related. -/
theorem forall₂_of_zip {α β : Type} {R : α → β → Prop} {as : List α} {bs : List β}
    (length : as.length = bs.length) (each : ∀ p ∈ as.zip bs, R p.1 p.2) :
    List.Forall₂ R as bs :=
  List.forall₂_iff_zip.mpr ⟨length, fun mem => each _ mem⟩

/-- Entries that are related stay so when both lists are given the same names. -/
theorem forall₂_zip_names {α β : Type} {R : α → β → Prop} {as : List α} {bs : List β}
    (all : List.Forall₂ R as bs) (names : List String) :
    List.Forall₂ (fun m m' => m.1 = m'.1 ∧ R m.2 m'.2) (names.zip as) (names.zip bs) := by
  induction all generalizing names with
  | nil => simp
  | cons first _ ih =>
    cases names with
    | nil => exact .nil
    | cons name names => exact .cons ⟨rfl, first⟩ (ih names)

/-- Entries that are paired have a third one in common if each pair has one. -/
theorem exists_common {α β γ : Type} {R : α → γ → Prop} {S : β → γ → Prop} {as : List α}
    {bs : List β} (length : as.length = bs.length)
    (each : ∀ p ∈ as.zip bs, ∃ c, R p.1 c ∧ S p.2 c) :
    ∃ cs, List.Forall₂ R as cs ∧ List.Forall₂ S bs cs := by
  have paired := forall₂_of_zip (R := fun a b => ∃ c, R a c ∧ S b c) length each
  induction paired with
  | nil => exact ⟨[], .nil, .nil⟩
  | cons first rest ih =>
    obtain ⟨c, ha, hb⟩ := first
    rw [List.zip_cons_cons, List.forall_mem_cons] at each
    obtain ⟨cs, has, hbs⟩ := ih (Nat.succ.inj length) each.2
    exact ⟨c :: cs, .cons ha has, .cons hb hbs⟩

/-- Links in the place of parts leave the closed value as it is that a value stands for. -/
theorem Relinked.exists_stands (h : Relinked links v w) :
    ∃ u, Stands links v u ∧ Stands links w u := by
  induction h with
  | flat closed => exact ⟨_, .flat closed, .flat closed⟩
  | array length _ ih =>
    obtain ⟨us, vs, ws⟩ := exists_common length ih
    exact ⟨_, stands_array vs, stands_array ws⟩
  | @object vs ws length names _ ih =>
    have each : ∀ p ∈ vs.zip ws, ∃ m, MemberStands links p.1 m ∧ MemberStands links p.2 m := by
      intro p mem
      obtain ⟨u, hv, hw⟩ := ih p mem
      exact ⟨(p.1.1, u), ⟨rfl, hv⟩, (names p mem).symm, hw⟩
    obtain ⟨us, vs, ws⟩ := exists_common length each
    exact ⟨_, stands_object vs, stands_object ws⟩
  | record length _ ih =>
    obtain ⟨us, vs, ws⟩ := exists_common length ih
    exact ⟨_, stands_record vs, stands_record ws⟩
  | target leads leads' _ ih =>
    obtain ⟨u, hv, hw⟩ := ih
    exact ⟨u, .link leads hv, .link leads' hw⟩
  | wrap _ leads ih =>
    obtain ⟨u, hv, hw⟩ := ih
    exact ⟨u, hv, .link leads hw⟩

/-- A value stands for another one as it is at hand, or as a link to a value that does so. -/
theorem Stands.follow {motive : Value → Prop} (stands : Stands links v u)
    (atHand : ∀ v, Stands links v u → v.kind ≠ .link → motive v)
    (link : ∀ id v, LeadsTo links id v → motive v → motive (.link id)) : motive v := by
  induction stands with
  | @flat v closed =>
    refine atHand v (.flat closed) ?_
    cases v <;> first | exact absurd closed not_closedWithin_link | nofun
  | array length items => exact atHand _ (.array length items) nofun
  | object length names members => exact atHand _ (.object length names members) nofun
  | record length values => exact atHand _ (.record length values) nofun
  | link leads _ ih => exact link _ _ leads (ih atHand)

/-! ### Values at hand -/

/-- What is no link has the shape of what it stands for. -/
theorem Stands.kind_eq (h : Stands links v u) (noLink : v.kind ≠ .link) : u.kind = v.kind := by
  cases h with
  | link => exact absurd rfl noLink
  | _ => rfl

theorem Stands.kind_ne_stream (h : Stands links v u) : v.kind ≠ .stream := by
  cases h with
  | flat closed => cases v <;> first | exact absurd closed not_closedWithin_stream | nofun
  | _ => nofun

theorem Stands.number?_eq (h : Stands links v u) (noLink : v.kind ≠ .link) :
    u.number? = v.number? := by
  cases h with
  | link => exact absurd rfl noLink
  | _ => rfl

theorem Stands.size?_eq (h : Stands links v u) (noLink : v.kind ≠ .link) : u.size? = v.size? := by
  cases h with
  | array length => exact congrArg some length.symm
  | object length => exact congrArg some length.symm
  | record length => exact congrArg some length.symm
  | link => exact absurd rfl noLink
  | flat => rfl

theorem StandMembers.lookup {vs us : List (String × Value)} (h : StandMembers links vs us)
    (name : String) : Option.Rel (Stands links) (vs.lookup name) (us.lookup name) := by
  induction h with
  | nil => exact .none
  | @cons m m' _ _ first _ ih =>
    obtain ⟨same, stands⟩ := first
    rw [List.lookup_cons, List.lookup_cons, ← same]
    split
    · exact .some stands
    · exact ih

theorem StandAll.getElem? {vs us : List Value} (h : StandAll links vs us) (i : Nat) :
    Option.Rel (Stands links) vs[i]? us[i]? := by
  induction h generalizing i with
  | nil => exact .none
  | cons first _ ih =>
    cases i with
    | zero => exact .some first
    | succ i => simpa using ih i

/-- What a name finds stands for what it finds in the closed value. -/
theorem Stands.member? (h : Stands links v u) (noLink : v.kind ≠ .link) (name : String) :
    Option.Rel (Stands links) (v.member? name) (u.member? name) := by
  cases h with
  | flat closed =>
    cases v with
    | object members => exact absurd closed.2 (Nat.not_succ_le_zero _)
    | record type values => exact absurd closed.2 (Nat.not_succ_le_zero _)
    | _ => exact .none
  | array => exact .none
  | object length names members =>
    exact StandMembers.lookup (forall₂_of_zip length fun p mem => ⟨names p mem, members p mem⟩) name
  | @record type vs us length values =>
    rw [Value.member?, Value.member?]
    cases type.fieldIndex? name with
    | none => exact .none
    | some i => exact StandAll.getElem? (forall₂_of_zip length values) i
  | link => exact absurd rfl noLink

/-- What holds of the entries of all pairs, holds of all entries of the two lists. -/
theorem forall_mem_of_zip {α β : Type} {P : α → Prop} {Q : β → Prop} {as : List α} {bs : List β}
    (length : as.length = bs.length) (each : ∀ p ∈ as.zip bs, P p.1 ∧ Q p.2) :
    (∀ a ∈ as, P a) ∧ ∀ b ∈ bs, Q b := by
  have paired := forall₂_of_zip (R := fun a b => P a ∧ Q b) length each
  clear each length
  induction paired with
  | nil => exact ⟨nofun, nofun⟩
  | cons first _ ih =>
    exact ⟨List.forall_mem_cons.mpr ⟨first.1, ih.1⟩, List.forall_mem_cons.mpr ⟨first.2, ih.2⟩⟩

/-- The value has no streams, and the one that it stands for no links either. -/
theorem Stands.settled_and_isClosed (h : Stands links v u) : Settled v ∧ u.isClosed = true := by
  induction h with
  | @flat v closed =>
    refine ⟨⟨0, ?_⟩, closed.1⟩
    cases v <;> simp_all [SettledWithin, ClosedWithin, isClosed, depth]
  | array length _ ih =>
    exact (forall_mem_of_zip length ih).imp settled_array allClosed_iff.mpr
  | object length _ _ ih =>
    exact (forall_mem_of_zip (P := fun m => Settled m.2) length ih).imp
      settled_object allMembersClosed_iff.mpr
  | record length _ ih =>
    exact (forall_mem_of_zip length ih).imp settled_record allClosed_iff.mpr
  | link _ _ ih => exact ⟨⟨0, trivial⟩, ih.2⟩

end Value

end TreeQuery
