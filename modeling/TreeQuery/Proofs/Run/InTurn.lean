import Mathlib.Data.List.Forall2
import TreeQuery.Run

/-!
# Runs one after the other

A run that carries an allowance comes to what it comes to with some allowance; which one does not
matter, as a larger one keeps every outcome. Of several runs one after the other, each starts from
the state that the one before it left, and the first failure is the last thing that happens.

## Main definitions

* `Run.Reaches` — what a run comes to, with some allowance
* `Run.InTurn` — what several runs come to, one after the other

## Main statements

* `Run.inTurn_iff` — going through a list is running its entries in turn
-/

namespace TreeQuery

namespace Run

variable {σ ε α β γ : Type}

/-- With some allowance, the run comes to this result and leaves this state. -/
def Reaches (r : (allowance : Nat) → Run σ ε α) (s : σ) (result : Except ε α) (s' : σ) : Prop :=
  ∃ n, (r n).outcome s = some (result, s')

/-- A larger allowance keeps every outcome. -/
def Steady (r : (allowance : Nat) → Run σ ε α) : Prop :=
  ∀ ⦃n m⦄, n ≤ m → ExtendedBy (r n) (r m)

/-- What the runs for the entries of a list come to when they take turns. -/
inductive InTurn (run : α → (allowance : Nat) → Run σ ε β) :
    List α → σ → Except ε (List β) → σ → Prop
  | nil (s : σ) : InTurn run [] s (.ok []) s
  /-- The run for an entry fails; the entries after it have no turn. -/
  | failure {a : α} {as : List α} {s s' : σ} {e : ε} (fails : Reaches (run a) s (.error e) s') :
      InTurn run (a :: as) s (.error e) s'
  /-- The run for an entry gives a value; the next entry starts from the state that it left. -/
  | value {a : α} {as : List α} {b : β} {result : Except ε (List β)} {s s' s'' : σ}
      (gives : Reaches (run a) s (.ok b) s') (rest : InTurn run as s' result s'') :
      InTurn run (a :: as) s (result.map (b :: ·)) s''

/-! ### Allowances -/

theorem steady_const (r : Run σ ε α) : Steady fun _ => r :=
  fun _ _ _ => .refl r

theorem Steady.bind {r : Nat → Run σ ε α} {f : Nat → α → Run σ ε β} (h : Steady r)
    (hf : ∀ a, Steady fun n => f n a) : Steady fun n => r n >>= f n :=
  fun _ _ le => (h le).bind fun a => hf a le

theorem Steady.attempt {r : Nat → Run σ ε α} (h : Steady r) : Steady fun n => (r n).attempt :=
  fun _ _ le => (h le).attempt

theorem Steady.mapError {ε' : Type} {r : Nat → Run σ ε α} (h : Steady r) (f : ε → ε') :
    Steady fun n => (r n).mapError f := by
  intro n m le s out ho
  obtain ⟨inner, hi, rfl⟩ := Option.map_eq_some_iff.mp ho
  rw [outcome_mapError, h le s inner hi]
  rfl

theorem Steady.mapM {f : Nat → α → Run σ ε β} (h : ∀ a, Steady fun n => f n a) (as : List α) :
    Steady fun n => as.mapM (f n) :=
  fun _ _ le => ExtendedBy.mapM (fun a => h a le) as

theorem Steady.foldlM {f : Nat → β → α → Run σ ε β} (h : ∀ b a, Steady fun n => f n b a)
    (as : List α) (b : β) : Steady fun n => as.foldlM (f n) b :=
  fun _ _ le => ExtendedBy.foldlM (fun b a => h b a le) b as

/-- What is reached, is reached with any allowance that is large enough. -/
theorem Reaches.of_le {r : Nat → Run σ ε α} {s s' : σ} {result : Except ε α}
    (h : Reaches r s result s') (steady : Steady r) (m : Nat) :
    ∃ n, m ≤ n ∧ (r n).outcome s = some (result, s') := by
  obtain ⟨n, ho⟩ := h
  exact ⟨max m n, Nat.le_max_left m n, steady (Nat.le_max_right m n) s _ ho⟩

/-- What is reached with one nested call more, is reached. -/
theorem Reaches.of_succ {r : Nat → Run σ ε α} {s s' : σ} {result : Except ε α}
    (h : Reaches (fun n => r (n + 1)) s result s') : Reaches r s result s' := by
  obtain ⟨n, ho⟩ := h
  exact ⟨n + 1, ho⟩

/-- A run comes to one result only. -/
theorem Reaches.unique {r : Nat → Run σ ε α} {s s' s'' : σ} {result result' : Except ε α}
    (h : Reaches r s result s') (h' : Reaches r s result' s'') (steady : Steady r) :
    result = result' ∧ s' = s'' := by
  obtain ⟨n, ho⟩ := h
  obtain ⟨m, le, ho'⟩ := h'.of_le steady n
  rw [steady le s _ ho] at ho'
  cases ho'
  exact ⟨rfl, rfl⟩

theorem reaches_pure (a : α) (s : σ) : Reaches (fun _ => (pure a : Run σ ε α)) s (.ok a) s :=
  ⟨0, rfl⟩

/-- One nested call more or less makes no difference to what is reached. -/
theorem reaches_succ {r : Nat → Run σ ε α} (steady : Steady r) {s s' : σ} {result : Except ε α} :
    Reaches (fun n => r (n + 1)) s result s' ↔ Reaches r s result s' := by
  constructor
  · exact Reaches.of_succ
  · rintro ⟨n, ho⟩
    exact ⟨n, steady (Nat.le_succ n) s _ ho⟩

/-- A run that gives a value is followed by one that comes to a result. -/
theorem Reaches.bind {r : Nat → Run σ ε α} {f : Nat → α → Run σ ε β} {s mid s' : σ} {a : α}
    {result : Except ε β} (first : Reaches r s (.ok a) mid)
    (second : Reaches (fun n => f n a) mid result s') (steady : Steady r)
    (steady' : Steady fun n => f n a) : Reaches (fun n => r n >>= f n) s result s' := by
  obtain ⟨n, second⟩ := second
  obtain ⟨m, le, first⟩ := first.of_le steady n
  refine ⟨m, ?_⟩
  -- The larger of the two allowances serves both.
  rw [outcome_bind, first]
  exact steady' le mid _ second

theorem reaches_change {f : σ → σ} {r : Nat → Run σ ε α} {s s' : σ} {result : Except ε α}
    (h : Reaches r (f s) result s') : Reaches (fun n => change f >>= fun _ => r n) s result s' := by
  obtain ⟨n, ho⟩ := h
  exact ⟨n, by rw [outcome_bind]; exact ho⟩

theorem Reaches.attempt {r : Nat → Run σ ε α} {s s' : σ} {result : Except ε α}
    (h : Reaches r s result s') : Reaches (fun n => (r n).attempt) s (.ok result) s' := by
  obtain ⟨n, ho⟩ := h
  exact ⟨n, by rw [outcome_attempt, ho]; rfl⟩

/-- Of two runs one after the other, the second starts where a value of the first left off. -/
theorem reaches_bind {r : Nat → Run σ ε α} {f : Nat → α → Run σ ε β} (steady : Steady r)
    (steady' : ∀ a, Steady fun n => f n a) {s s' : σ} {result : Except ε β} :
    Reaches (fun n => r n >>= f n) s result s' ↔
      (∃ e, Reaches r s (.error e) s' ∧ result = .error e) ∨
        ∃ a mid, Reaches r s (.ok a) mid ∧ Reaches (fun n => f n a) mid result s' := by
  constructor
  · rintro ⟨n, ho⟩
    rw [outcome_bind] at ho
    split at ho
    · cases ho
    · next a mid first => exact .inr ⟨a, mid, ⟨n, first⟩, ⟨n, ho⟩⟩
    · next e mid first =>
      cases ho
      exact .inl ⟨e, ⟨n, first⟩, rfl⟩
  · rintro (⟨e, ⟨n, first⟩, rfl⟩ | ⟨a, mid, first, second⟩)
    · exact ⟨n, by rw [outcome_bind, first]⟩
    · exact first.bind second steady (steady' a)

/-- A function of a run's value changes nothing else. -/
theorem outcome_map (r : Run σ ε α) (g : α → β) (s : σ) :
    (r >>= fun a => pure (g a)).outcome s =
      (r.outcome s).map fun (result, s') => (result.map g, s') := by
  rw [outcome_bind]
  cases r.outcome s with
  | none => rfl
  | some out =>
    obtain ⟨result, s'⟩ := out
    cases result <;> rfl

/-- Where the result of one run is made of that of another and the state is the same, one is reached
through the other. -/
theorem reaches_of_outcome_map {ε' : Type} {r : Nat → Run σ ε α} {r' : Nat → Run σ ε' β}
    {g : Except ε α → Except ε' β} {s s' : σ} {result : Except ε' β}
    (same : ∀ n, (r' n).outcome s = ((r n).outcome s).map fun (result, s') => (g result, s')) :
    Reaches r' s result s' ↔ ∃ result', Reaches r s result' s' ∧ result = g result' := by
  simp only [Reaches, same, Option.map_eq_some_iff, Prod.mk.injEq]
  constructor
  · rintro ⟨n, ⟨result', _⟩, ho, rfl, rfl⟩
    exact ⟨result', ⟨n, ho⟩, rfl⟩
  · rintro ⟨result', ⟨n, ho⟩, rfl⟩
    exact ⟨n, ⟨result', s'⟩, ho, rfl, rfl⟩

theorem reaches_map {r : Nat → Run σ ε α} {g : α → β} {s s' : σ} {result : Except ε β} :
    Reaches (fun n => r n >>= fun a => pure (g a)) s result s' ↔
      ∃ result', Reaches r s result' s' ∧ result = result'.map g :=
  reaches_of_outcome_map fun n => outcome_map (r n) g s

/-- A failure told in other words changes nothing else. -/
theorem reaches_mapError {ε' : Type} {r : Nat → Run σ ε α} {f : ε → ε'} {s s' : σ}
    {result : Except ε' α} :
    Reaches (fun n => (r n).mapError f) s result s' ↔
      ∃ result', Reaches r s result' s' ∧ result = result'.mapError f :=
  reaches_of_outcome_map fun n => outcome_mapError f (r n) s

/-! ### Lists -/

/-- Going through a list is running its entries in turn. -/
theorem inTurn_iff {run : α → Nat → Run σ ε β} (steady : ∀ a, Steady (run a)) {as : List α}
    {s s' : σ} {result : Except ε (List β)} :
    InTurn run as s result s' ↔ Reaches (fun n => as.mapM fun a => run a n) s result s' := by
  induction as generalizing s result with
  | nil =>
    constructor
    · intro h
      cases h
      exact ⟨0, rfl⟩
    · rintro ⟨n, ho⟩
      cases ho
      exact .nil _
  | cons a as ih =>
    simp only [List.mapM_cons]
    -- The first entry and the others may be given different allowances.
    have rest (b : β) : Steady fun n => do return b :: (← as.mapM fun a => run a n) :=
      (Steady.mapM (fun a => steady a) as).bind fun _ => steady_const _
    rw [reaches_bind (steady a) rest]
    constructor
    · intro h
      cases h with
      | failure fails => exact .inl ⟨_, fails, rfl⟩
      | value gives turns => exact .inr ⟨_, _, gives, reaches_map.mpr ⟨_, ih.mp turns, rfl⟩⟩
    · rintro (⟨e, fails, rfl⟩ | ⟨b, mid, gives, turns⟩)
      · exact .failure fails
      · obtain ⟨result', others, rfl⟩ := reaches_map.mp turns
        exact .value gives (ih.mpr others)

/-- If a list comes to values, so does its first entry, and then the others. -/
theorem InTurn.exists_of_cons {run : α → Nat → Run σ ε β} {a : α} {as : List α} {s s' : σ}
    {bs : List β} (h : InTurn run (a :: as) s (.ok bs) s') :
    ∃ b bs' mid, bs = b :: bs' ∧ Reaches (run a) s (.ok b) mid ∧
      InTurn run as mid (.ok bs') s' := by
  generalize same : (Except.ok bs : Except ε (List β)) = result at h
  cases h with
  | failure fails => cases same
  | @value _ _ b result _ mid _ gives rest =>
    cases result with
    | error e => cases same
    | ok bs' =>
      cases same
      exact ⟨b, bs', mid, rfl, gives, rest⟩

/-- What each run gives, the values given in turn are. -/
theorem InTurn.forall_mem {run : α → Nat → Run σ ε β} {property : β → Prop}
    (each : ∀ {a s b s'}, Reaches (run a) s (.ok b) s' → property b) {as : List α} {s s' : σ}
    {bs : List β} (h : InTurn run as s (.ok bs) s') : ∀ b ∈ bs, property b := by
  generalize same : (Except.ok bs : Except ε (List β)) = result at h
  induction h generalizing bs with
  | nil =>
    cases same
    intro b mem
    cases mem
  | failure _ => cases same
  | @value _ _ b result _ _ _ gives _ ih =>
    cases result with
    | error e => cases same
    | ok bs' =>
      cases same
      exact List.forall_mem_cons.mpr ⟨each gives, ih rfl⟩

/-- Failures told in other words leave the turns as they are. -/
theorem inTurn_mapError {ε' : Type} {run : α → Nat → Run σ ε β} {run' : γ → Nat → Run σ ε' β}
    {f : ε → ε'} {as : List α} {cs : List γ}
    (each : List.Forall₂ (fun c a => ∀ n, run' c n = (run a n).mapError f) cs as) {s s' : σ}
    {result : Except ε' (List β)} :
    InTurn run' cs s result s' ↔
      ∃ result', InTurn run as s result' s' ∧ result = result'.mapError f := by
  induction each generalizing s result with
  | nil =>
    constructor
    · intro h
      cases h
      exact ⟨.ok [], .nil _, rfl⟩
    · rintro ⟨_, ⟨⟩, rfl⟩
      exact .nil _
  | @cons c a cs as same _ ih =>
    -- Each turn by itself tells its failure in other words.
    have single {s s' : σ} {result : Except ε' β} : Reaches (run' c) s result s' ↔
        ∃ result', Reaches (run a) s result' s' ∧ result = result'.mapError f := by
      rw [show run' c = fun n => (run a n).mapError f from funext same, reaches_mapError]
    constructor
    · intro h
      cases h with
      | failure fails =>
        obtain ⟨e | b, fails', told⟩ := single.mp fails
        · cases told
          exact ⟨.error e, .failure fails', rfl⟩
        · cases told
      | value gives rest =>
        obtain ⟨e | b, gives', told⟩ := single.mp gives
        · cases told
        · cases told
          obtain ⟨result', turns, rfl⟩ := ih.mp rest
          refine ⟨_, .value gives' turns, ?_⟩
          cases result' <;> rfl
    · rintro ⟨_, turns, rfl⟩
      cases turns with
      | failure fails => exact .failure (single.mpr ⟨_, fails, rfl⟩)
      | @value _ _ b result' _ _ _ gives rest =>
        have told : (result'.map (b :: ·)).mapError f = (result'.mapError f).map (b :: ·) := by
          cases result' <;> rfl
        rw [told]
        exact .value (single.mpr ⟨_, gives, rfl⟩) (ih.mpr ⟨_, rest, rfl⟩)

end Run

end TreeQuery
