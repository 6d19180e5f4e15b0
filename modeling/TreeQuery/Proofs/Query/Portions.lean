import Mathlib.Data.Seq.Basic
import TreeQuery.Proofs.Evaluation.Settled
import TreeQuery.Proofs.Evaluation.Views
import TreeQuery.Proofs.Query.Pointwise

/-!
# Portions of streams

A slice of a stream drops elements that it has to skip, but no failures: one that takes the place of
a skipped element is given like any other. What stands at the stop or after it is not even pulled.
So taking all that a slice gives fails exactly if there is a failure before the stop, and it is the
first one that comes out.

A stream is told by the sequence of what its pulls give, which may go on for ever. Whatever happens
to the streams that it has nothing to do with, it gives what is next in its sequence.

## Main definitions

* `Evaluation.Deals`, `Evaluation.Carries` — what the pulls of a stream give, some or all of them
* `Slice.keepFrom` — what a slice keeps of what comes from a position on

## Main statements

* `Evaluation.exists_carries` — there is a stream for every sequence
* `Evaluation.deals_of_cutting` — a slice gives what it keeps
* `Evaluation.oneByOne_sliced_iff` — taking all that a slice gives
* `Query.slice_failures` — no failure before the stop is lost
-/

namespace TreeQuery

/-- All elements that are given, or the first failure. -/
def allGiven : List Given → Except EvalError (List Value)
  | [] => .ok []
  | .error e :: _ => .error e
  | .ok v :: xs => (allGiven xs).map (v :: ·)

section AllGiven

variable {xs : List Given} {e : EvalError} {v : Value} {vs : List Value}

@[simp] theorem allGiven_nil : allGiven [] = .ok [] := rfl

@[simp] theorem allGiven_error_cons : allGiven (.error e :: xs) = .error e := rfl

@[simp] theorem allGiven_ok_cons : allGiven (.ok v :: xs) = (allGiven xs).map (v :: ·) := rfl

/-- An element in front makes no difference to which failure is the first one. -/
theorem allGiven_ok_cons_eq_error_iff :
    allGiven (.ok v :: xs) = .error e ↔ allGiven xs = .error e := by
  rw [allGiven_ok_cons]
  cases allGiven xs <;> simp [Except.map]

theorem allGiven_eq_ok_iff : allGiven xs = .ok vs ↔ xs = vs.map .ok := by
  induction xs generalizing vs with
  | nil => cases vs <;> simp
  | cons x xs ih =>
    cases x with
    | error e => cases vs <;> simp
    | ok v =>
      rw [allGiven_ok_cons]
      cases rest : allGiven xs with
      | error e =>
        have none (ws : List Value) : xs ≠ ws.map .ok := by simp [← ih, rest]
        cases vs <;> simp [Except.map, none]
      | ok ws =>
        obtain rfl := ih.mp rest
        cases vs with
        | nil => simp [Except.map]
        | cons w ws' =>
          simp [Except.map, (List.map_injective_iff.mpr fun _ _ => Except.ok.inj).eq_iff]

/-- It is the first failure that comes out. -/
theorem allGiven_eq_error_iff : allGiven xs = .error e ↔
    ∃ i : Nat, xs[i]? = some (Except.error e) ∧
      ∀ j < i, ∀ e', xs[j]? ≠ some (Except.error e') := by
  induction xs with
  | nil => simp
  | cons x xs ih =>
    cases x with
    | error e' =>
      rw [allGiven_error_cons]
      constructor
      · rintro ⟨⟩
        exact ⟨0, rfl, nofun⟩
      · rintro ⟨i, here, first⟩
        cases i with
        | zero => cases here; rfl
        | succ i => exact absurd rfl (first 0 (Nat.succ_pos i) e')
    | ok v =>
      rw [allGiven_ok_cons_eq_error_iff, ih]
      constructor
      · rintro ⟨i, here, first⟩
        refine ⟨i + 1, here, fun j before => ?_⟩
        cases j with
        | zero => exact nofun
        | succ j => exact first j (Nat.lt_of_succ_lt_succ before)
      · rintro ⟨i, here, first⟩
        cases i with
        | zero => cases here
        | succ i => exact ⟨i, here, fun j before => first (j + 1) (Nat.succ_lt_succ before)⟩

/-- Where there is no failure, there are elements only. -/
theorem exists_eq_map_ok (none : ∀ e, Except.error e ∉ xs) :
    ∃ vs : List Value, xs = vs.map .ok := by
  cases given : allGiven xs with
  | ok vs => exact ⟨vs, allGiven_eq_ok_iff.mp given⟩
  | error e =>
    obtain ⟨i, here, -⟩ := allGiven_eq_error_iff.mp given
    exact absurd (List.mem_of_getElem? here) (none e)

end AllGiven

namespace Slice

variable {s : Slice} {p n : Nat} {xs : List Given}

/-- The first `n` positions are before the stop, if there is one. -/
def Spans (s : Slice) (n : Nat) : Prop := ∀ stop, s.stop = some stop → n ≤ stop

theorem spans_of_stop (stop : s.stop = some n) : s.Spans n := fun stop' same => by
  rw [stop] at same
  exact Nat.le_of_eq (Option.some.inj same)

theorem Spans.mono {m : Nat} (spans : s.Spans n) (le : m ≤ n) : s.Spans m :=
  fun stop same => Nat.le_trans le (spans stop same)

/-- The elements of a slice and all failures, if the first one is at the position `p`. -/
def keepFrom (s : Slice) (p : Nat) (xs : List Given) : List Given :=
  ((xs.zipIdx p).filter fun (x, i) => !x.isOk || s.contains i).map Prod.fst

theorem keep_eq_keepFrom : s.keep xs = s.keepFrom 0 xs := rfl

theorem keepFrom_cons (x : Given) : s.keepFrom p (x :: xs) =
    if !x.isOk || s.contains p then x :: s.keepFrom (p + 1) xs else s.keepFrom (p + 1) xs := by
  simp only [keepFrom, List.zipIdx_cons, List.filter_cons]
  split <;> rfl

theorem keepFrom_cons_error (e : EvalError) :
    s.keepFrom p (.error e :: xs) = .error e :: s.keepFrom (p + 1) xs :=
  keepFrom_cons _

theorem keepFrom_cons_of_contains (contains : s.contains p = true) (x : Given) :
    s.keepFrom p (x :: xs) = x :: s.keepFrom (p + 1) xs := by
  rw [keepFrom_cons, contains, Bool.or_true, if_pos rfl]

theorem keepFrom_cons_of_not_contains (contains : ¬ s.contains p = true) (v : Value) :
    s.keepFrom p (.ok v :: xs) = s.keepFrom (p + 1) xs := by
  rw [keepFrom_cons, Bool.eq_false_iff.mpr contains]
  exact if_neg Bool.false_ne_true

theorem mem_of_mem_keepFrom {x : Given} (mem : x ∈ s.keepFrom p xs) : x ∈ xs := by
  simp only [keepFrom, List.mem_map, List.mem_filter] at mem
  obtain ⟨⟨y, i⟩, ⟨mem, -⟩, rfl⟩ := mem
  exact List.fst_mem_of_mem_zipIdx mem

theorem error_mem_keepFrom {e : EvalError} (mem : Except.error e ∈ xs) :
    Except.error e ∈ s.keepFrom p xs := by
  induction xs generalizing p with
  | nil => cases mem
  | cons x xs ih =>
    rw [keepFrom_cons]
    rcases List.mem_cons.mp mem with rfl | mem
    · exact List.mem_cons_self ..
    · split
      · exact List.mem_cons_of_mem _ (ih mem)
      · exact ih mem

/-- No failure is lost, and so the first one stays the first. -/
theorem allGiven_keepFrom_eq_error_iff {e : EvalError} :
    allGiven (s.keepFrom p xs) = .error e ↔ allGiven xs = .error e := by
  induction xs generalizing p with
  | nil => rfl
  | cons x xs ih =>
    cases x with
    | error e' => rw [keepFrom_cons_error, allGiven_error_cons, allGiven_error_cons]
    | ok v =>
      rw [allGiven_ok_cons_eq_error_iff, ← ih (p := p + 1)]
      by_cases contains : s.contains p = true
      · rw [keepFrom_cons_of_contains contains, allGiven_ok_cons_eq_error_iff]
      · rw [keepFrom_cons_of_not_contains contains]

/-- Without a stop, only what comes before the start is lost. -/
theorem le_length_keepFrom (endless : s.stop = none) :
    xs.length ≤ (s.keepFrom p xs).length + (s.start - p) := by
  induction xs generalizing p with
  | nil => exact Nat.zero_le _
  | cons x xs ih =>
    have rest := ih (p := p + 1)
    rw [keepFrom_cons, List.length_cons]
    by_cases started : s.start ≤ p
    · have contains : s.contains p = true := by simp [contains, endless, started]
      rw [contains, Bool.or_true, if_pos rfl, List.length_cons]
      omega
    · split
      · rw [List.length_cons]
        omega
      · omega

end Slice

/-- The item of a source that gives this. -/
def Item.ofGiven : Given → Item
  | .ok v => .element v
  | .error e => .failure e

theorem Item.given?_ofGiven (x : Given) : (Item.ofGiven x).given? = some x := by
  cases x <;> rfl

/-- A source that lists items takes as many of them as it is asked for. -/
theorem Source.gives_listed (label : String) (shown : Bool) (xs : List Given) (position n : Nat) :
    Source.Gives ⟨label, shown, .listed (xs.map Item.ofGiven), position⟩ (xs.take n)
      ⟨label, shown, .listed ((xs.drop n).map Item.ofGiven), position + (xs.take n).length⟩ := by
  induction n generalizing xs position with
  | zero => exact .nil _
  | succ n ih =>
    cases xs with
    | nil => exact .nil _
    | cons x xs =>
      refine .cons rfl (Item.given?_ofGiven x) ?_
      have rest := ih xs (position + 1)
      rwa [Nat.add_assoc, Nat.add_comm 1] at rest

theorem Source.gives_endless (label : String) (shown : Bool) (element : Nat → Value)
    (position n : Nat) :
    Source.Gives ⟨label, shown, .endless element, position⟩
      ((List.range' position n).map fun i => .ok (element i))
      ⟨label, shown, .endless element, position + n⟩ := by
  induction n generalizing position with
  | zero => exact .nil _
  | succ n ih =>
    have rest := ih (position + 1)
    rw [Nat.add_assoc, Nat.add_comm 1] at rest
    exact .cons rfl rfl rest

namespace Evaluation

open Host Run

open Stream' (Seq)

variable {K K' : Set StreamId} {h h' g : Host} {id feed : StreamId} {ends ends' : Prop}
  {xs zs : List Given} {cut : Slice} {budget : Option Nat} {p : Nat}

/-! ### What streams give -/

/-- Pulls of the stream give these elements and failures one after the other, and then, if `ends`,
its end. That is so whatever becomes of the streams of `K`, and pulls leave these alone. -/
def Deals (K : Set StreamId) (id : StreamId) (ends : Prop) : List Given → Host → Prop
  | [], h => ends → ∀ g, SameOn Kᶜ h g → ∃ g', Reaches (fun n => pull n id) g (.ok none) g' ∧
      ∀ m ∈ K, g'.streams[m.index]? = g.streams[m.index]?
  | x :: xs, h => ∀ g, SameOn Kᶜ h g → ∃ g', Reaches (fun n => pull n id) g (x.map some) g' ∧
      (∀ m ∈ K, g'.streams[m.index]? = g.streams[m.index]?) ∧ Deals K id ends xs g'

/-- The whole sequence, which may be endless, is what pulls of the stream give. -/
def Carries (K : Set StreamId) (id : StreamId) (items : Seq Given) (h : Host) : Prop :=
  ∀ n, Deals K id (items.TerminatedAt n) (items.take n) h

theorem Deals.of_sameOn (deals : Deals K id ends xs h) (same : SameOn Kᶜ h g) :
    Deals K id ends xs g := by
  cases xs with
  | nil => exact fun ended g' same' => deals ended g' (same.trans same')
  | cons x xs => exact fun g' same' => deals g' (same.trans same')

theorem Deals.imp (deals : Deals K id ends xs h) (weaker : ends' → ends) :
    Deals K id ends' xs h := by
  induction xs generalizing h with
  | nil => exact fun ended => deals (weaker ended)
  | cons x xs ih =>
    intro g same
    obtain ⟨g', pulls, kept, rest⟩ := deals g same
    exact ⟨g', pulls, kept, ih rest⟩

/-- A stream of `K` is not among those that may not change. -/
theorem sameOn_compl_modifyStream {f : StreamCell → StreamCell} (inside : id ∈ K) :
    SameOn Kᶜ h (h.modifyStream id f) :=
  sameOn_modifyStream fun outside => outside inside

/-- A pull leaves the streams alone that the move of its cursor does. -/
theorem reaches_pull_keeping {c : Cursor} {result : Except EvalError (Option Value)}
    (outside : id ∉ K) (found : h.streams[id.index]? = some ⟨c, false⟩)
    (moves : Reaches (fun n => advance n id c) (h.setBusy id true) result g)
    (kept : ∀ m ∈ K, g.streams[m.index]? = (h.setBusy id true).streams[m.index]?) :
    Reaches (fun n => pull n id) h result (g.setBusy id false) ∧
      ∀ m ∈ K, (g.setBusy id false).streams[m.index]? = h.streams[m.index]? := by
  refine ⟨(reaches_pull_iff found).mpr ⟨g, moves, rfl⟩, fun m mem => ?_⟩
  have apart : m ≠ id := fun same => outside (same ▸ mem)
  exact (getElem?_modifyStream_of_ne apart).trans
    ((kept m mem).trans (getElem?_modifyStream_of_ne apart))

/-! ### Streams that slices are taken of -/

/-- A source gives what its items give. -/
theorem deals_of_source {s s' : Source} (outside : id ∉ K)
    (found : h.streams[id.index]? = some ⟨.source s, false⟩) (gives : s.Gives xs s') :
    Deals K id (s'.take? = none) xs h := by
  induction gives generalizing h with
  | nil s =>
    intro ended g same
    exact ⟨_, reaches_pull_keeping outside ((same.streams id outside).trans found)
      (reaches_advance_source_none ended) fun _ _ => rfl⟩
  | @cons s s₁ s' item x xs takes given _ ih =>
    intro g same
    have found := (same.streams id outside).trans found
    have busy : (g.setBusy id true).streams[id.index]? = some ⟨.source s, true⟩ :=
      getElem?_modifyStream found
    obtain ⟨pulls, kept⟩ := reaches_pull_keeping outside found
      (reaches_advance_source_some takes given) fun m mem =>
        getElem?_modifyStream_of_ne fun same => outside (same ▸ mem)
    have moved : ((g.setBusy id true).setCursor id (.source s₁)).streams[id.index]? =
        some ⟨.source s₁, true⟩ := getElem?_modifyStream busy
    exact ⟨_, pulls, kept, ih (getElem?_modifyStream moved)⟩

section Feed

-- A stream that hands on what another one gives is among those that the other one leaves alone.
variable (outside : id ∉ K)
include outside

/-- A stream whose elements are transformed by a function gives what the function makes of them. -/
theorem deals_of_mapped {f : Value → Except EvalError Value}
    (found : h.streams[id.index]? = some ⟨.mapped feed (.function f), false⟩)
    (deals : Deals (insert id K) feed ends xs h) : Deals K id ends (xs.map (·.bind f)) h := by
  have inside : id ∈ insert id K := Set.mem_insert id K
  have sub : (insert id K)ᶜ ⊆ Kᶜ := Set.compl_subset_compl.mpr (Set.subset_insert id K)
  induction xs generalizing h with
  | nil =>
    intro ended g same
    obtain ⟨g', pulls, kept⟩ :=
      deals ended (g.setBusy id true) ((same.mono sub).trans (sameOn_compl_modifyStream inside))
    exact ⟨_, reaches_pull_keeping outside ((same.streams id outside).trans found)
      (reaches_advance_mapped_none pulls) fun m mem => kept m (Set.mem_insert_of_mem id mem)⟩
  | cons x xs ih =>
    intro g same
    have found := (same.streams id outside).trans found
    -- The stream is marked as busy before it pulls, which its feed does not notice.
    obtain ⟨g', pulls, kept, rest⟩ :=
      deals (g.setBusy id true) ((same.mono sub).trans (sameOn_compl_modifyStream inside))
    have moves : Reaches (fun n => advance n id (.mapped feed (.function f))) (g.setBusy id true)
        ((x.bind f).map some) g' := by
      refine reaches_advance_mapped_iff.mpr ?_
      cases x with
      | error e => exact .inl ⟨e, pulls, rfl⟩
      | ok v =>
        exact .inr (.inr ⟨v, g', f v, pulls, reaches_transform_function f v g', rfl⟩)
    obtain ⟨pulls', kept'⟩ := reaches_pull_keeping outside found moves fun m mem =>
      kept m (Set.mem_insert_of_mem id mem)
    have busy : g'.streams[id.index]? = some ⟨.mapped feed (.function f), true⟩ :=
      (kept id inside).trans (getElem?_modifyStream found)
    exact ⟨_, pulls', kept', ih (getElem?_modifyStream busy)
      (rest.of_sameOn (sameOn_compl_modifyStream inside))⟩

end Feed

theorem take_ofList (xs : List Given) (n : Nat) : (Seq.ofList xs).take n = xs.take n := by
  refine List.ext_getElem? fun i => ?_
  rw [Seq.getElem?_take, Seq.ofList_get?, List.getElem?_take]

/-- A source that lists items carries what they give. -/
theorem carries_listed {label : String} {shown : Bool} {position : Nat} (outside : id ∉ K)
    (found : h.streams[id.index]? =
      some ⟨.source ⟨label, shown, .listed (xs.map Item.ofGiven), position⟩, false⟩) :
    Carries K id (Seq.ofList xs) h := by
  intro n
  rw [take_ofList]
  refine (deals_of_source outside found (Source.gives_listed label shown xs position n)).imp ?_
  intro ended
  have done : xs.drop n = [] := List.drop_eq_nil_of_le (List.getElem?_eq_none_iff.mp ended)
  rw [done]
  rfl

/-- A host whose only stream is a source that lists the elements and failures. -/
def listingHost (xs : List Given) : Host :=
  ⟨#[], #[⟨.source ⟨"source", true, .listed (xs.map Item.ofGiven), 0⟩, false⟩], [], #[]⟩

theorem carries_listingHost (xs : List Given) :
    Carries {⟨1⟩} ⟨0⟩ (Seq.ofList xs) (listingHost xs) := by
  refine carries_listed ?_ rfl
  rintro ⟨⟩

/-- A value that tells a position. -/
def marker (n : Nat) : Value := .array (List.replicate n .null)

/-- The element at the position that a value tells. -/
def lookUp (items : Seq Given) : Value → Given
  | .array vs => (items.get? vs.length).getD (.ok .null)
  | _ => .ok .null

theorem lookUp_marker {items : Seq Given} {n : Nat} {x : Given} (here : items.get? n = some x) :
    lookUp items (marker n) = x := by
  simp [lookUp, marker, here]

/-- A host with an endless source of positions and a stream that looks these up. -/
def indexingHost (items : Seq Given) : Host :=
  ⟨#[], #[⟨.source ⟨"source", true, .endless marker, 0⟩, false⟩,
    ⟨.mapped ⟨0⟩ (.function (lookUp items)), false⟩], [], #[]⟩

theorem carries_indexingHost {items : Seq Given} (endless : ¬ items.Terminates) :
    Carries {⟨2⟩} ⟨1⟩ items (indexingHost items) := by
  intro n
  let positions : List Given := (List.range' 0 n).map fun i => .ok (marker i)
  have source : Deals {⟨1⟩, ⟨2⟩} ⟨0⟩ False positions (indexingHost items) :=
    (deals_of_source (by simp) rfl (Source.gives_endless "source" true marker 0 n)).imp False.elim
  have mapped : Deals {⟨2⟩} ⟨1⟩ False (positions.map (·.bind (lookUp items)))
      (indexingHost items) :=
    deals_of_mapped (by simp) rfl source
  have same : positions.map (·.bind (lookUp items)) = items.take n := by
    refine List.ext_getElem? fun i => ?_
    obtain ⟨x, here⟩ := Option.isSome_iff_exists.mp (Seq.not_terminates_iff.mp endless i)
    rw [Seq.getElem?_take, here]
    by_cases before : i < n
    · simp [positions, before, Except.bind, lookUp_marker here]
    · simp [positions, before]
  rw [← same]
  exact mapped.imp fun ended => endless ⟨n, ended⟩

/-- There is a stream for every sequence of elements and failures, whether it ends or not. -/
theorem exists_carries (items : Seq Given) :
    ∃ h feed, Carries {⟨h.streams.size⟩} feed items h := by
  by_cases terminates : items.Terminates
  · have same : Seq.ofList (items.toList terminates) = items := Seq.ext fun n => by
      rw [Seq.ofList_get?, Seq.getElem?_toList]
    have carries := carries_listingHost (items.toList terminates)
    rw [same] at carries
    exact ⟨listingHost (items.toList terminates), ⟨0⟩, carries⟩
  · exact ⟨indexingHost items, ⟨1⟩, carries_indexingHost terminates⟩

/-! ### Slices -/

/-- A slice has taken all up to the position `p`, and `xs` comes next in the stream that feeds it.
It may pull so often. -/
structure Cutting (K : Set StreamId) (feed id : StreamId) (cut : Slice) (ends : Prop)
    (budget : Option Nat) (p : Nat) (busy : Bool) (xs : List Given) (h : Host) : Prop where
  deals : Deals (insert id K) feed ends xs h
  cell : h.streams[id.index]? = some ⟨.sliced feed cut budget p, busy⟩
  room : ∀ n, budget = some n → xs.length ≤ n

theorem Cutting.setBusy {busy : Bool} (cutting : Cutting K feed id cut ends budget p busy xs h)
    (busy' : Bool) : Cutting K feed id cut ends budget p busy' xs (h.setBusy id busy') :=
  ⟨cutting.deals.of_sameOn (sameOn_compl_modifyStream (Set.mem_insert id K)),
    getElem?_modifyStream cutting.cell, cutting.room⟩

/-- Changes elsewhere do not matter to it. -/
theorem Cutting.of_sameOn {busy : Bool} (outside : id ∉ K)
    (cutting : Cutting K feed id cut ends budget p busy xs h) (same : SameOn Kᶜ h g) :
    Cutting K feed id cut ends budget p busy xs g where
  deals := cutting.deals.of_sameOn
    (same.mono (Set.compl_subset_compl.mpr (Set.subset_insert id K)))
  cell := (same.streams id outside).trans cutting.cell
  room := cutting.room

/-- Whatever comes next, it counts. -/
theorem Cutting.next {x : Given} (outside : id ∉ K)
    (cutting : Cutting K feed id cut ends budget p true (x :: xs) h) :
    ∃ g, Reaches (fun n => pull n feed)
        (h.setCursor id (.sliced feed cut (budget.map (· - 1)) p)) (x.map some) g ∧
      let g' := g.setCursor id (.sliced feed cut (budget.map (· - 1)) (p + 1))
      Cutting K feed id cut ends (budget.map (· - 1)) (p + 1) true xs g' ∧
        ∀ m ∈ K, g'.streams[m.index]? = h.streams[m.index]? := by
  have inside : id ∈ insert id K := Set.mem_insert id K
  -- The budget goes down before the pull, and the position goes up after it.
  obtain ⟨g, pulls, kept, rest⟩ := cutting.deals
    (h.setCursor id (.sliced feed cut (budget.map (· - 1)) p)) (sameOn_compl_modifyStream inside)
  have cell : g.streams[id.index]? = some ⟨.sliced feed cut (budget.map (· - 1)) p, true⟩ :=
    (kept id inside).trans (getElem?_modifyStream cutting.cell)
  refine ⟨g, pulls, ⟨rest.of_sameOn (sameOn_compl_modifyStream inside),
    getElem?_modifyStream cell, fun n left => ?_⟩, fun m mem => ?_⟩
  · obtain ⟨b, rfl, rfl⟩ := Option.map_eq_some_iff.mp left
    have room := cutting.room b rfl
    rw [List.length_cons] at room
    omega
  · have apart : m ≠ id := fun same => outside (same ▸ mem)
    exact (getElem?_modifyStream_of_ne apart).trans
      ((kept m (Set.mem_insert_of_mem id mem)).trans (getElem?_modifyStream_of_ne apart))

/-- While something comes next, the slice may pull. -/
theorem Cutting.unspent {x : Given} {busy : Bool}
    (cutting : Cutting K feed id cut ends budget p busy (x :: xs) h) : budget ≠ some 0 :=
  fun spent => Nat.not_succ_le_zero _ (cutting.room 0 spent)

/-- Where nothing is kept of what comes next, the slice comes to its end, if there is one. -/
theorem Cutting.finishes (outside : id ∉ K)
    (cutting : Cutting K feed id cut ends budget p true xs h) (nothing : cut.keepFrom p xs = [])
    (last : ends ∨ budget = some xs.length) :
    ∃ g, Reaches (fun n => advance n id (.sliced feed cut budget p)) h (.ok none) g ∧
      ∀ m ∈ K, g.streams[m.index]? = h.streams[m.index]? := by
  -- By induction on what is dealt, since the slice looks at all of it before it ends.
  induction xs generalizing h budget p with
  | nil =>
    by_cases spent : budget = some 0
    · exact spent ▸ ⟨h, reaches_advance_spent, fun _ _ => rfl⟩
    · have inside : id ∈ insert id K := Set.mem_insert id K
      obtain ⟨g, pulls, kept⟩ := cutting.deals (last.resolve_right spent)
        (h.setCursor id (.sliced feed cut (budget.map (· - 1)) p))
        (sameOn_compl_modifyStream inside)
      refine ⟨g, (reaches_advance_sliced_iff spent).mpr ⟨_, g, pulls, rfl, rfl⟩, fun m mem => ?_⟩
      have apart : m ≠ id := fun same => outside (same ▸ mem)
      exact (kept m (Set.mem_insert_of_mem id mem)).trans (getElem?_modifyStream_of_ne apart)
  | cons x xs ih =>
    obtain ⟨g, pulls, cutting', kept⟩ := cutting.next outside
    cases x with
    | error e => exact absurd nothing (List.cons_ne_nil _ _)
    | ok v =>
      have skipped : ¬ cut.contains p = true := fun contains => by
        rw [Slice.keepFrom_cons_of_contains contains] at nothing
        exact absurd nothing (List.cons_ne_nil _ _)
      rw [Slice.keepFrom_cons_of_not_contains skipped] at nothing
      have last' : ends ∨ budget.map (· - 1) = some xs.length :=
        last.imp_right fun spans => by rw [spans]; rfl
      obtain ⟨g', moves, kept'⟩ := ih cutting' nothing last'
      refine ⟨g', (reaches_advance_sliced_iff cutting.unspent).mpr ⟨_, g, pulls, ?_⟩,
        fun m mem => (kept' m mem).trans (kept m mem)⟩
      simp only [if_neg skipped]
      exact moves

/-- Otherwise it gives the first of what is kept, and goes on behind that. -/
theorem Cutting.gives {z : Given} (outside : id ∉ K)
    (cutting : Cutting K feed id cut ends budget p true xs h)
    (keeps : cut.keepFrom p xs = z :: zs) :
    ∃ g budget' p' xs', Reaches (fun n => advance n id (.sliced feed cut budget p)) h
        (z.map some) g ∧
      Cutting K feed id cut ends budget' p' true xs' g ∧ cut.keepFrom p' xs' = zs ∧
      (budget = some xs.length → budget' = some xs'.length) ∧
      ∀ m ∈ K, g.streams[m.index]? = h.streams[m.index]? := by
  -- By induction on what is dealt: what the slice leaves out is skipped within one pull.
  induction xs generalizing h budget p with
  | nil => cases keeps
  | cons x xs ih =>
    obtain ⟨g, pulls, cutting', kept⟩ := cutting.next outside
    have spans : budget = some (x :: xs).length → budget.map (· - 1) = some xs.length :=
      fun spans => by rw [spans]; rfl
    cases x with
    | error e =>
      rw [Slice.keepFrom_cons_error, List.cons.injEq] at keeps
      obtain ⟨rfl, keeps⟩ := keeps
      exact ⟨_, _, _, xs, (reaches_advance_sliced_iff cutting.unspent).mpr
        ⟨_, g, pulls, rfl, rfl⟩, cutting', keeps, spans, kept⟩
    | ok v =>
      by_cases contains : cut.contains p = true
      · rw [Slice.keepFrom_cons_of_contains contains, List.cons.injEq] at keeps
        obtain ⟨rfl, keeps⟩ := keeps
        refine ⟨_, _, _, xs, (reaches_advance_sliced_iff cutting.unspent).mpr ⟨_, g, pulls, ?_⟩,
          cutting', keeps, spans, kept⟩
        simp only [if_pos contains]
        exact ⟨rfl, trivial⟩
      · rw [Slice.keepFrom_cons_of_not_contains contains] at keeps
        obtain ⟨g', budget', p', xs', moves, cutting'', keeps, spans', kept'⟩ := ih cutting' keeps
        refine ⟨g', budget', p', xs', (reaches_advance_sliced_iff cutting.unspent).mpr
          ⟨_, g, pulls, ?_⟩, cutting'', keeps, spans' ∘ spans,
          fun m mem => (kept' m mem).trans (kept m mem)⟩
        simp only [if_neg contains]
        exact moves

/-- A slice gives what it keeps of what comes next in the stream that feeds it. It ends where that
stream does, or where it may pull no more. -/
theorem deals_of_cutting (outside : id ∉ K)
    (cutting : Cutting K feed id cut ends budget p false xs h) :
    Deals K id (ends ∨ budget = some xs.length) (cut.keepFrom p xs) h := by
  generalize keeps : cut.keepFrom p xs = zs
  -- By induction on what it gives, for a pull may skip any number of elements.
  induction zs generalizing h budget p xs with
  | nil =>
    intro last g same
    have cutting' := cutting.of_sameOn outside same
    obtain ⟨g', moves, kept⟩ := (cutting'.setBusy true).finishes outside keeps last
    exact ⟨_, reaches_pull_keeping outside cutting'.cell moves kept⟩
  | cons z zs ih =>
    intro g same
    have cutting' := cutting.of_sameOn outside same
    obtain ⟨g', budget', p', xs', moves, cutting'', keeps', spans, kept⟩ :=
      (cutting'.setBusy true).gives outside keeps
    obtain ⟨pulls, kept'⟩ := reaches_pull_keeping outside cutting'.cell moves kept
    refine ⟨_, pulls, kept', (ih (cutting''.setBusy false) keeps').imp ?_⟩
    exact fun last => last.imp_right spans

/-! ### Taking all that a stream gives -/

section Work

variable {next : (allowance : Nat) → Evaluation (Option Value)}
  {work : Value → (allowance : Nat) → Evaluation Value}
  {result result' : Except EvalError (List Value)}

/-- Work on an element comes to the element, and nothing happens. -/
def Idle (work : Value → (allowance : Nat) → Evaluation Value) (v : Value) : Prop :=
  ∀ ⦃h result h'⦄, Reaches (work v) h result h' ↔ result = .ok v ∧ h' = h

theorem idle_pure (v : Value) : Idle (fun v _ => pure v) v := by
  intro h result h'
  constructor
  · rintro ⟨_, ⟨⟩⟩
    exact ⟨rfl, rfl⟩
  · rintro ⟨rfl, rfl⟩
    exact reaches_pure v _

theorem idle_settle {v : Value} (settled : v.Settled) : Idle (fun v n => settle n v) v :=
  fun _ _ _ => reaches_settle_of_settled settled

/-- What comes of taking all that a stream gives: its elements, or the first failure. -/
def Collects (id : StreamId) : Host → Except EvalError (List Value) → Host → Prop :=
  OneByOne (fun n => pull n id) fun v _ => pure v

/-- Taking elements and working on them comes to one result only. -/
theorem OneByOne.unique (steady : Steady next) (steady' : ∀ v, Steady (work v))
    (turns : OneByOne next work h result h') (turns' : OneByOne next work h result' g) :
    result = result' ∧ h' = g := by
  induction turns generalizing result' g with
  | finish ends =>
    cases turns' with
    | finish ends' => exact ⟨rfl, (ends.unique ends' steady).2⟩
    | refusal fails => cases (ends.unique fails steady).1
    | failure takes | value takes => cases (ends.unique takes steady).1
  | refusal fails =>
    cases turns' with
    | finish ends => cases (fails.unique ends steady).1
    | refusal fails' =>
      obtain ⟨⟨⟩, rfl⟩ := fails.unique fails' steady
      exact ⟨rfl, rfl⟩
    | failure takes | value takes => cases (fails.unique takes steady).1
  | failure takes fails =>
    cases turns' with
    | finish ends => cases (takes.unique ends steady).1
    | refusal fails' => cases (takes.unique fails' steady).1
    | failure takes' fails' =>
      obtain ⟨⟨⟩, rfl⟩ := takes.unique takes' steady
      obtain ⟨⟨⟩, rfl⟩ := fails.unique fails' (steady' _)
      exact ⟨rfl, rfl⟩
    | value takes' works =>
      obtain ⟨⟨⟩, rfl⟩ := takes.unique takes' steady
      cases (fails.unique works (steady' _)).1
  | value takes works _ ih =>
    cases turns' with
    | finish ends => cases (takes.unique ends steady).1
    | refusal fails => cases (takes.unique fails steady).1
    | failure takes' fails =>
      obtain ⟨⟨⟩, rfl⟩ := takes.unique takes' steady
      cases (works.unique fails (steady' _)).1
    | value takes' works' rest =>
      obtain ⟨⟨⟩, rfl⟩ := takes.unique takes' steady
      obtain ⟨⟨⟩, rfl⟩ := works.unique works' (steady' _)
      obtain ⟨rfl, rfl⟩ := ih rest
      exact ⟨rfl, rfl⟩

/-- Taking all that a stream gives comes to an end if the stream does, or if it gives a failure. -/
theorem Deals.exists_oneByOne (deals : Deals K id ends xs h)
    (idle : ∀ v, Except.ok v ∈ xs → Idle work v) (last : ends ∨ ∃ e, Except.error e ∈ xs) :
    ∃ g, OneByOne (fun n => pull n id) work h (allGiven xs) g := by
  induction xs generalizing h with
  | nil =>
    obtain ⟨g, pulls, -⟩ := deals (last.resolve_right (by simp)) h (.refl _ h)
    exact ⟨g, .finish pulls⟩
  | cons x xs ih =>
    obtain ⟨g, pulls, -, rest⟩ := deals h (.refl _ h)
    cases x with
    | error e => exact ⟨g, .refusal pulls⟩
    | ok v =>
      have last' : ends ∨ ∃ e, Except.error e ∈ xs := by simpa using last
      obtain ⟨g', turns⟩ := ih rest (fun w mem => idle w (List.mem_cons_of_mem _ mem)) last'
      exact ⟨g', .value pulls ((idle v (List.mem_cons_self ..)).mpr ⟨rfl, rfl⟩) turns⟩

/-- Whoever comes to an end has pulled so often only. -/
theorem OneByOne.exists_length_lt (turns : OneByOne (fun n => pull n id) work h result h') :
    ∃ k, ∀ ⦃ends : Prop⦄ ⦃vs : List Value⦄, Deals K id ends (vs.map .ok) h →
      (∀ v ∈ vs, Idle work v) → vs.length < k := by
  have steady := steady_pull id
  induction turns with
  | finish ended =>
    refine ⟨1, fun ends vs deals idle => ?_⟩
    cases vs with
    | nil => exact Nat.one_pos
    | cons v vs =>
      obtain ⟨g, pulls, -⟩ := deals _ (.refl _ _)
      cases (ended.unique pulls steady).1
  | refusal fails =>
    refine ⟨1, fun ends vs deals idle => ?_⟩
    cases vs with
    | nil => exact Nat.one_pos
    | cons v vs =>
      obtain ⟨g, pulls, -⟩ := deals _ (.refl _ _)
      cases (fails.unique pulls steady).1
  | failure takes fails =>
    refine ⟨1, fun ends vs deals idle => ?_⟩
    cases vs with
    | nil => exact Nat.one_pos
    | cons v vs =>
      obtain ⟨g, pulls, -⟩ := deals _ (.refl _ _)
      cases (takes.unique pulls steady).1
      cases ((idle _ (List.mem_cons_self ..)).mp fails).1
  | value takes works _ ih =>
    obtain ⟨k, short⟩ := ih
    refine ⟨k + 1, fun ends vs deals idle => ?_⟩
    cases vs with
    | nil => exact Nat.succ_pos k
    | cons v vs =>
      obtain ⟨g, pulls, -, rest⟩ := deals _ (.refl _ _)
      obtain ⟨⟨⟩, rfl⟩ := takes.unique pulls steady
      obtain ⟨-, rfl⟩ := (idle _ (List.mem_cons_self ..)).mp works
      exact Nat.succ_lt_succ (short rest fun w mem => idle w (List.mem_cons_of_mem _ mem))

end Work

/-! ### Taking all that a slice gives -/

theorem sameOn_addStream (c : Cursor) (h : Host) (K : Set StreamId) :
    SameOn (insert (h.addStream c).1 K)ᶜ h (h.addStream c).2 where
  streams m outside := by
    have apart : m.index ≠ h.streams.size := fun same => outside (.inl (congrArg StreamId.mk same))
    simp [addStream, Array.getElem?_push, apart]
  names := rfl
  links := rfl

/-- A sequence of which there is less than what was asked for has ended. -/
theorem terminatedAt_of_length_take_lt {items : Seq Given} {n : Nat}
    (short : (items.take n).length < n) : items.TerminatedAt n := by
  have nothing : (items.take n)[(items.take n).length]? = none :=
    List.getElem?_length _
  rw [Seq.getElem?_take, if_pos short] at nothing
  exact Seq.terminated_stable items (Nat.le_of_lt short) nothing

section Sliced

variable {items : Seq Given} {work : Value → (allowance : Nat) → Evaluation Value} {n : Nat}

theorem exists_get?_of_mem_take {x : Given} (mem : x ∈ items.take n) :
    ∃ i < n, items.get? i = some x := by
  obtain ⟨i, here⟩ := List.mem_iff_getElem?.mp mem
  rw [Seq.getElem?_take] at here
  split at here
  · next before => exact ⟨i, before, here⟩
  · cases here

variable (outside : (⟨h.streams.size⟩ : StreamId) ∉ K)
  (carries : Carries (insert ⟨h.streams.size⟩ K) feed items h)
include outside carries

/-- A slice gives what it keeps of as many elements and failures as there are before its stop. -/
theorem deals_slice (spans : cut.Spans n) :
    Deals K ⟨h.streams.size⟩ (items.TerminatedAt n ∨ cut.stop = some n) (cut.keep (items.take n))
      (h.addStream (.sliced feed cut cut.stop 0)).2 := by
  have cutting : Cutting K feed ⟨h.streams.size⟩ cut (items.TerminatedAt n) cut.stop 0 false
      (items.take n) (h.addStream (.sliced feed cut cut.stop 0)).2 :=
    ⟨(carries n).of_sameOn (sameOn_addStream _ h K), getElem?_addStream _ h,
      fun stop same => Nat.le_trans Seq.length_take_le (spans stop same)⟩
  refine (deals_of_cutting outside cutting).imp ?_
  rintro (ended | stops)
  · exact .inl ended
  · by_cases short : (items.take n).length < n
    · exact .inl (terminatedAt_of_length_take_lt short)
    · have long : (items.take n).length = n :=
        Nat.le_antisymm Seq.length_take_le (Nat.le_of_not_lt short)
      exact .inr (long.symm ▸ stops)

section Idle

variable (idle : ∀ i v, cut.Spans (i + 1) → items.get? i = some (.ok v) → Idle work v)
include idle

omit outside carries in
theorem idle_of_mem_keep (spans : cut.Spans n) {v : Value}
    (mem : Except.ok v ∈ cut.keep (items.take n)) : Idle work v := by
  obtain ⟨i, before, here⟩ := exists_get?_of_mem_take (Slice.mem_of_mem_keepFrom mem)
  exact idle i v (spans.mono before) here

/-- If taking all that a slice gives comes to an end, then so does the slice, or there is a failure
before that. -/
theorem exists_last_of_oneByOne {result : Except EvalError (List Value)}
    (turns : OneByOne (fun n => pull n ⟨h.streams.size⟩) work
      (h.addStream (.sliced feed cut cut.stop 0)).2 result g) :
    ∃ n, cut.Spans n ∧ (items.TerminatedAt n ∨ cut.stop = some n ∨
      ∃ e, Except.error e ∈ items.take n) := by
  -- Otherwise there would always be something to pull.
  by_contra lasting
  simp only [not_exists, not_and, not_or] at lasting
  have endless : cut.stop = none := by
    cases stop : cut.stop with
    | none => rfl
    | some stop' => exact absurd stop (lasting stop' (Slice.spans_of_stop stop)).2.1
  have spans (n : Nat) : cut.Spans n := fun stop same => by
    rw [endless] at same
    cases same
  obtain ⟨k, short⟩ := turns.exists_length_lt (K := K)
  -- The slice skips what comes before its start, so that many more are needed.
  have long : cut.start + k ≤ (items.take (cut.start + k)).length :=
    Nat.le_of_not_lt fun short => (lasting _ (spans _)).1 (terminatedAt_of_length_take_lt short)
  have kept : (items.take (cut.start + k)).length ≤
      (cut.keep (items.take (cut.start + k))).length + (cut.start - 0) :=
    Slice.le_length_keepFrom endless
  obtain ⟨vs, same⟩ := exists_eq_map_ok fun e mem =>
    (lasting _ (spans (cut.start + k))).2.2 e (Slice.mem_of_mem_keepFrom mem)
  have deals := deals_slice outside carries (spans (cut.start + k))
  have idle' (v : Value) (mem : v ∈ vs) : Idle work v :=
    idle_of_mem_keep idle (spans _) (same ▸ List.mem_map_of_mem mem)
  rw [Slice.keep_eq_keepFrom, same] at deals kept
  have few := short deals idle'
  rw [List.length_map] at kept
  omega

/-- Taking all that a slice gives comes to an end where the slice does, or if there is a failure
before that. What comes of it are the elements, or the first failure. -/
theorem oneByOne_sliced_iff (steady : ∀ v, Steady (work v))
    {result : Except EvalError (List Value)} :
    (∃ g, OneByOne (fun n => pull n ⟨h.streams.size⟩) work
      (h.addStream (.sliced feed cut cut.stop 0)).2 result g) ↔
      ∃ n, cut.Spans n ∧ (items.TerminatedAt n ∨ cut.stop = some n ∨
        ∃ e, Except.error e ∈ items.take n) ∧ result = allGiven (cut.keep (items.take n)) := by
  have comes {n : Nat} (spans : cut.Spans n) (last : items.TerminatedAt n ∨ cut.stop = some n ∨
      ∃ e, Except.error e ∈ items.take n) : ∃ g, OneByOne (fun n => pull n ⟨h.streams.size⟩) work
        (h.addStream (.sliced feed cut cut.stop 0)).2 (allGiven (cut.keep (items.take n))) g := by
    refine (deals_slice outside carries spans).exists_oneByOne
      (fun v => idle_of_mem_keep idle spans) ?_
    rw [← or_assoc] at last
    exact last.imp_right fun ⟨e, mem⟩ => ⟨e, Slice.error_mem_keepFrom mem⟩
  constructor
  · rintro ⟨g, turns⟩
    obtain ⟨n, spans, last⟩ := exists_last_of_oneByOne outside carries idle turns
    obtain ⟨g', turns'⟩ := comes spans last
    exact ⟨n, spans, last, (turns.unique (steady_pull _) steady turns').1⟩
  · rintro ⟨n, spans, last, rfl⟩
    exact comes spans last

end Idle

/-- It is the first failure before the stop that comes out. -/
theorem collects_error_iff {e : EvalError} :
    (∃ g, Collects ⟨h.streams.size⟩ (h.addStream (.sliced feed cut cut.stop 0)).2 (.error e) g) ↔
      ∃ i, cut.Spans (i + 1) ∧ items.get? i = some (.error e) ∧
        ∀ j < i, ∀ e', items.get? j ≠ some (.error e') := by
  refine (oneByOne_sliced_iff outside carries (fun _ v _ _ => idle_pure v)
    fun _ => steady_const _).trans ?_
  -- The failure may come from what is skipped as well as from what is kept.
  have first {n : Nat} : Except.error e = allGiven (cut.keep (items.take n)) ↔
      ∃ i : Nat, (items.take n)[i]? = some (Except.error e) ∧
        ∀ j < i, ∀ e', (items.take n)[j]? ≠ some (Except.error e') := by
    rw [eq_comm, Slice.keep_eq_keepFrom, Slice.allGiven_keepFrom_eq_error_iff,
      allGiven_eq_error_iff]
  simp only [first, Seq.getElem?_take]
  constructor
  · rintro ⟨n, spans, -, i, here, before⟩
    split at here
    · next inside =>
      refine ⟨i, spans.mono inside, here, fun j earlier e' => ?_⟩
      have := before j earlier e'
      rwa [if_pos (Nat.lt_trans earlier inside)] at this
    · cases here
  · rintro ⟨i, spans, here, before⟩
    refine ⟨i + 1, spans, .inr (.inr ⟨e, Seq.get?_mem_take (Nat.lt_succ_self i) here⟩), i, ?_,
      fun j earlier e' => ?_⟩
    · rw [if_pos (Nat.lt_succ_self i), here]
    · rw [if_pos (Nat.lt_succ_of_lt earlier)]
      exact before j earlier e'

/-- Without a failure before that, it is what the slice keeps up to its end. -/
theorem collects_ok_iff {vs : List Value} :
    (∃ g, Collects ⟨h.streams.size⟩ (h.addStream (.sliced feed cut cut.stop 0)).2 (.ok vs) g) ↔
      ∃ n, cut.Spans n ∧ (items.TerminatedAt n ∨ cut.stop = some n) ∧
        cut.keep (items.take n) = vs.map .ok := by
  refine (oneByOne_sliced_iff outside carries (fun _ v _ _ => idle_pure v)
    fun _ => steady_const _).trans (exists_congr fun n => and_congr_right fun _ => ?_)
  rw [eq_comm (a := Except.ok vs), allGiven_eq_ok_iff]
  constructor
  · rintro ⟨ended | stops | ⟨e, mem⟩, keeps⟩
    · exact ⟨.inl ended, keeps⟩
    · exact ⟨.inr stops, keeps⟩
    · have kept : Except.error e ∈ cut.keep (items.take n) := Slice.error_mem_keepFrom mem
      rw [keeps] at kept
      simp at kept
  · rintro ⟨ended | stops, keeps⟩
    · exact ⟨.inl ended, keeps⟩
    · exact ⟨.inr (.inl stops), keeps⟩

/-- Settling does the same, where it leaves the elements as they are. -/
theorem reaches_settle_sliced_iff
    (settled : ∀ i v, cut.Spans (i + 1) → items.get? i = some (.ok v) → v.Settled)
    {result : Except EvalError Value} :
    (∃ g, Reaches (fun n => settle n (.stream ⟨h.streams.size⟩))
      (h.addStream (.sliced feed cut cut.stop 0)).2 result g) ↔
      ∃ collected, (∃ g, Collects ⟨h.streams.size⟩ (h.addStream (.sliced feed cut cut.stop 0)).2
        collected g) ∧ result = collected.map .array := by
  have same {collected : Except EvalError (List Value)} :
      (∃ g, OneByOne (fun n => pull n ⟨h.streams.size⟩) (fun v n => settle n v)
        (h.addStream (.sliced feed cut cut.stop 0)).2 collected g) ↔
      ∃ g, Collects ⟨h.streams.size⟩ (h.addStream (.sliced feed cut cut.stop 0)).2 collected g :=
    (oneByOne_sliced_iff outside carries
      (fun i v spans here => idle_settle (settled i v spans here)) steady_settle).trans
      (oneByOne_sliced_iff outside carries (fun _ v _ _ => idle_pure v)
        fun _ => steady_const _).symm
  simp only [reaches_settle_stream_iff]
  constructor
  · rintro ⟨g, collected, turns, rfl⟩
    exact ⟨collected, same.mp ⟨g, turns⟩, rfl⟩
  · rintro ⟨collected, collects, rfl⟩
    obtain ⟨g, turns⟩ := same.mpr collects
    exact ⟨g, collected, turns, rfl⟩

end Sliced

end Evaluation

namespace Query

open Evaluation Run

open Stream' (Seq)

/-- There is a stream for every sequence of elements and failures. A slice of it that is not the
whole gives, one by one, what there is before the stop, as far as it is a failure or its position
belongs to the slice. So taking all that the slice gives fails exactly if there is a failure before
the stop, the elements that are skipped included, and the first one comes out. It gives values
exactly if the slice ends without any, and these are the elements that it keeps. The same comes of
settling the slice, unless there are streams in its elements that would be settled too. -/
theorem slice_failures :
    (∀ items : Seq Given, ∃ h feed, Carries {⟨h.streams.size⟩} feed items h) ∧
    ∀ {K : Set StreamId} {h : Host} {feed : StreamId} {items : Seq Given} {cut : Slice},
      cut.all = false → ⟨h.streams.size⟩ ∉ K →
      Carries (insert ⟨h.streams.size⟩ K) feed items h →
      ∃ id h₁, Reaches (fun n => select n (.slice cut) (.stream feed)) h (.ok (.stream id)) h₁ ∧
        (∀ n, cut.Spans n → Deals K id (items.TerminatedAt n ∨ cut.stop = some n)
          (cut.keep (items.take n)) h₁) ∧
        (∀ e, (∃ g, Collects id h₁ (.error e) g) ↔
          ∃ i, cut.Spans (i + 1) ∧ items.get? i = some (.error e) ∧
            ∀ j < i, ∀ e', items.get? j ≠ some (.error e')) ∧
        (∀ vs, (∃ g, Collects id h₁ (.ok vs) g) ↔
          ∃ n, cut.Spans n ∧ (items.TerminatedAt n ∨ cut.stop = some n) ∧
            cut.keep (items.take n) = vs.map .ok) ∧
        ((∀ i v, cut.Spans (i + 1) → items.get? i = some (.ok v) → v.Settled) →
          ∀ result, (∃ g, Reaches (fun n => settle n (.stream id)) h₁ result g) ↔
            ∃ collected, (∃ g, Collects id h₁ collected g) ∧ result = collected.map .array) := by
  refine ⟨exists_carries, fun {K h feed items cut} part outside carries =>
    ⟨⟨h.streams.size⟩, _, reaches_select_slice_stream (by simp [part]),
      fun n spans => deals_slice outside carries spans,
      fun e => collects_error_iff outside carries, fun vs => collects_ok_iff outside carries,
      fun settled result => reaches_settle_sliced_iff outside carries settled⟩⟩

/-- Two elements, each with a failure behind it. -/
def mixed : List Given :=
  [.ok (.integer 1), .error (.linkFailure "first"),
    .ok (.integer 2), .error (.linkFailure "second")]

/-- A slice of the third position fails with what stands before it; a slice of the first position
knows nothing of that. -/
theorem slice_failures_mixed :
    (∃ id h₁ g, Reaches (fun n => select n (.slice (.between 2 (some 3))) (.stream ⟨0⟩))
      (listingHost mixed) (.ok (.stream id)) h₁ ∧
      Collects id h₁ (.error (.linkFailure "first")) g) ∧
    ∃ id h₁ g, Reaches (fun n => select n (.slice (.between 0 (some 1))) (.stream ⟨0⟩))
      (listingHost mixed) (.ok (.stream id)) h₁ ∧ Collects id h₁ (.ok [.integer 1]) g := by
  obtain ⟨-, slices⟩ := slice_failures
  have outside : (⟨(listingHost mixed).streams.size⟩ : StreamId) ∉ (∅ : Set StreamId) :=
    Set.notMem_empty _
  have carries : Carries (insert ⟨(listingHost mixed).streams.size⟩ ∅) ⟨0⟩ (Seq.ofList mixed)
      (listingHost mixed) := by
    rw [insert_empty_eq]
    exact carries_listingHost mixed
  constructor
  · have part : Slice.all (.between 2 (some 3)) = false := rfl
    obtain ⟨id, h₁, opens, -, fails, -⟩ := slices part outside carries
    have before : Slice.Spans (.between 2 (some 3)) 2 := by
      rintro stop ⟨⟩
      decide
    -- The failure stands second, before the third position is reached.
    obtain ⟨g, collects⟩ := (fails (.linkFailure "first")).mpr ⟨1, before, rfl, by
      intro j earlier e' here
      obtain rfl : j = 0 := by omega
      cases here⟩
    exact ⟨id, h₁, g, opens, collects⟩
  · have part : Slice.all (.between 0 (some 1)) = false := rfl
    obtain ⟨id, h₁, opens, -, -, gives, -⟩ := slices part outside carries
    have before : Slice.Spans (.between 0 (some 1)) 1 := by
      rintro stop ⟨⟩
      decide
    obtain ⟨g, collects⟩ := (gives [.integer 1]).mpr ⟨1, before, .inr rfl, rfl⟩
    exact ⟨id, h₁, g, opens, collects⟩

end Query

end TreeQuery
