import TreeQuery.Proofs.Evaluation.Rules

/-!
# The course of an evaluation

The functions of the evaluator call each other, and what a call does to a host is only known once it
is through. To speak of the calls themselves, the course of each is laid open: the host operations
that are its own, the calls that it makes, and how it goes on after the outcome of each. A course
can be run, each call in it with one nested call less, and that is the evaluator again. So what is
called, from which host, and inside of which other calls, can be read off the courses.

## Main definitions

* `Evaluation.Task` — what the evaluator is called for
* `Evaluation.Course` — host operations and calls, in order
* `Evaluation.Task.course` — the course of each call
* `Evaluation.Course.Calls` — a call that is made in a course, and the host that it starts from
* `Evaluation.Course.Nested` — a call, with those that are under way around it

## Main statements

* `Evaluation.Task.run_succ` — a call runs its course
-/

namespace TreeQuery

namespace Evaluation

open Host Run

/-- What the evaluator is called for. -/
inductive Task where
  | resolution (id : LinkId)
  | resolve (v : Value)
  | eval (f : Filter) (v : Value)
  | select (s : Selector) (v : Value)
  | gather (s : Selector) (id : StreamId)
  | settle (v : Value)
  | drain (id : StreamId)
  | pull (id : StreamId)
  | advance (id : StreamId) (c : Cursor)
  | transform (t : Transform) (v : Value)

/-- What a call gives. -/
abbrev Task.Gives : Task → Type
  | gather .. => List Value
  | drain _ => List Value
  | pull _ => Option Value
  | advance .. => Option Value
  | _ => Value

/-- A call. -/
def Task.run : (t : Task) → (allowance : Nat) → Evaluation t.Gives
  | resolution id, _ => resolveOnce id
  | resolve v, n => Evaluation.resolve n v
  | eval f v, n => Evaluation.eval n f v
  | select s v, n => Evaluation.select n s v
  | gather s id, n => Evaluation.gather n s id
  | settle v, n => Evaluation.settle n v
  | drain id, n => Evaluation.drain n id
  | pull id, n => Evaluation.pull n id
  | advance id c, n => Evaluation.advance n id c
  | transform t v, n => Evaluation.transform n t v

theorem steady_task (t : Task) : Steady t.run := by
  cases t with
  | resolution id => exact steady_const _
  | resolve v => exact fun _ _ le => resolve_extendedBy le v
  | eval f v => exact steady_eval f v
  | select s v => exact steady_select s v
  | gather s id => exact fun _ _ le => extendedBy_of_succ (fun n => (keeps_all n).gather s id) le
  | settle v => exact steady_settle v
  | drain id => exact steady_drain id
  | pull id => exact steady_pull id
  | advance id c => exact steady_advance id c
  | transform t v => exact steady_transform t v

/-! ### Courses -/

/-- Host operations and calls, in order. What comes after a call may depend on its failure; that of
a host operation is the end. -/
inductive Course (α : Type) : Type 1 where
  | done (result : Except EvalError α)
  | own {β : Type} (r : Evaluation β) (next : β → Course α)
  | call (t : Task) (next : Except EvalError t.Gives → Course α)

namespace Course

variable {α β : Type} {n : Nat}

/-- One course after the other, unless the first one fails. -/
def bind : Course α → (α → Course β) → Course β
  | done (.ok a), f => f a
  | done (.error e), _ => done (.error e)
  | own r next, f => own r fun b => (next b).bind f
  | call t next, f => call t fun result => (next result).bind f

instance : Monad Course where
  pure a := done (.ok a)
  bind := bind

theorem bind_done (c : Course α) : c.bind (fun a => done (.ok a)) = c := by
  induction c with
  | done result => cases result <;> rfl
  | own r next ih => exact congrArg (own r) (funext ih)
  | call t next ih => exact congrArg (call t) (funext ih)

theorem bind_bind {γ : Type} (c : Course α) (f : α → Course β) (g : β → Course γ) :
    (c.bind f).bind g = c.bind fun a => (f a).bind g := by
  induction c with
  | done result => cases result <;> rfl
  | own r next ih => exact congrArg (own r) (funext ih)
  | call t next ih => exact congrArg (call t) (funext ih)

instance : LawfulMonad Course :=
  LawfulMonad.mk' Course bind_done (fun _ _ => rfl) bind_bind

/-- The course of one host operation. -/
def lift (r : Evaluation α) : Course α :=
  own r pure

/-- The course of one call. -/
def perform (t : Task) : Course t.Gives :=
  call t done

/-- A course is run with an allowance for its calls. -/
def run : Course α → (allowance : Nat) → Evaluation α
  | done result, _ => .ofExcept result
  | own r next, n => r >>= fun b => (next b).run n
  | call t next, n => (t.run n).attempt >>= fun result => (next result).run n

@[simp] theorem run_pure (a : α) : (pure a : Course α).run n = pure a := rfl

@[simp] theorem run_lift (r : Evaluation α) : (lift r).run n = r :=
  bind_pure r

@[simp] theorem run_perform (t : Task) : (perform t).run n = t.run n := by
  funext h
  change Run.outcome ((t.run n).attempt >>= Run.ofExcept) h = (t.run n).outcome h
  rw [outcome_bind, outcome_attempt]
  cases (t.run n).outcome h with
  | none => rfl
  | some out =>
    obtain ⟨result, h'⟩ := out
    cases result <;> rfl

@[simp] theorem run_bind (c : Course α) (f : α → Course β) :
    (c >>= f).run n = c.run n >>= fun a => (f a).run n := by
  change (c.bind f).run n = _
  induction c with
  | done result => cases result <;> rfl
  | own r next ih => simp only [bind, run, bind_assoc, ih]
  | call t next ih => simp only [bind, run, bind_assoc, ih]

@[simp] theorem run_map (g : α → β) (c : Course α) : (g <$> c).run n = g <$> c.run n := by
  rw [map_eq_pure_bind, map_eq_pure_bind, run_bind]
  rfl

@[simp] theorem run_mapM (f : α → Course β) (as : List α) :
    (as.mapM f).run n = as.mapM fun a => (f a).run n := by
  induction as with
  | nil => rfl
  | cons a as ih => simp only [List.mapM_cons, run_bind, run_pure, ih]

@[simp] theorem run_foldlM (f : β → α → Course β) (b : β) (as : List α) :
    (as.foldlM f b).run n = as.foldlM (fun b a => (f b a).run n) b := by
  induction as generalizing b with
  | nil => rfl
  | cons a as ih => simp only [List.foldlM_cons, run_bind, ih]

theorem steady_run (c : Course α) : Steady c.run := by
  induction c with
  | done result => exact steady_const _
  | own r next ih => exact (steady_const r).bind ih
  | call t next ih => exact (steady_task t).attempt.bind ih

/-! ### The courses of the evaluator -/

/-- The course of resolving a value until it is no link. -/
def ofResolve : Value → Course Value
  | .link id => do perform (.resolve (← perform (.resolution id)))
  | v => pure v

/-- The course of applying a filter. -/
def ofEval : Filter → Value → Course Value
  | f, .link id => do perform (.eval f (← perform (.resolution id)))
  | .select s, v => perform (.select s v)
  | .path steps, v => steps.foldlM (fun v s => perform (.select s v)) v
  | .pipe stages, v => stages.foldlM (fun v f => perform (.eval f v)) v
  | f, .stream id => lift (mapStream id (.filter f))
  | .text s, _ => pure (.string s)
  | .number x, _ => pure (.float x)
  | .length, v => pure ((v.size?.map Value.ofCount).getD .null)
  | .binary op left right, v => do
    let a ← perform (.eval left v)
    let b ← perform (.eval right v)
    let a ← perform (.resolve a)
    let b ← perform (.resolve b)
    lift (operate (.binary op left right) op a b)
  | .group members, v => do
    let results ← members.mapM fun member => do perform (.settle (← perform (.eval member v)))
    return .array results
  | .mapping entries, v => do
    let results ← entries.mapM fun (name, entry) => do
      return (name, ← perform (.settle (← perform (.eval entry v))))
    return .ofMembers results

/-- The course of a step into a value. -/
def ofSelect : Selector → Value → Course Value
  | s, .link id => do perform (.select s (← perform (.resolution id)))
  | .identity, v => pure v
  | s@(.key _), .array items => do
    return .array (← items.mapM fun item => perform (.select s item))
  | s@(.key _), .stream id => lift (mapStream id (.selector s))
  | .key name, v => pure ((v.member? name).getD .null)
  | .index i, .array items => lift (elementAt items i)
  | .index i, .string text => do return .string (.singleton (← lift (elementAt text.toList i)))
  | .index i, .bytes bs => do return .integer (.ofNat (← lift (elementAt bs i)).toNat)
  | s@(.index _), .stream id => do return .array (← perform (.gather s id))
  | .index _, _ => pure .null
  | .slice r, .array items => pure (.array (r.apply items))
  | .slice r, .string text => pure (.string (.ofList (r.apply text.toList)))
  | .slice r, .bytes bs => pure (.bytes (r.apply bs))
  | .slice r, .stream id => lift (sliceStream id r)
  | .slice _, _ => pure .null

/-- The course of a step into every element of a stream. -/
def ofGather (s : Selector) (id : StreamId) : Course (List Value) := do
  match ← perform (.pull id) with
  | none => return []
  | some v =>
    let v ← perform (.select s v)
    return v :: (← perform (.gather s id))

/-- The course of settling a value. -/
def ofSettle : Value → Course Value
  | .stream id => do return .array (← perform (.drain id))
  | .array items => do return .array (← items.mapM fun item => perform (.settle item))
  | .object members => do
    return .object (← members.mapM fun (name, member) => do
      return (name, ← perform (.settle member)))
  | .record type values => do
    return .record type (← values.mapM fun v => perform (.settle v))
  | v => pure v

/-- The course of settling every element of a stream. -/
def ofDrain (id : StreamId) : Course (List Value) := do
  match ← perform (.pull id) with
  | none => return []
  | some v =>
    let v ← perform (.settle v)
    return v :: (← perform (.drain id))

/-- The course of a pull. -/
def ofPull (id : StreamId) : Course (Option Value) :=
  own (.read fun h => h.streams[id.index]?) fun
    | none => lift .cutOff
    | some cell =>
      if cell.busy then done (.error .streamInUse)
      else own (.change (Host.setBusy id true)) fun _ =>
        call (.advance id cell.cursor) fun result =>
          own (.change (Host.setBusy id false)) fun _ => done result

/-- What an item gives that has its elements from nowhere else. -/
def giveItem : Option Item → Evaluation (Option Value)
  | some (.element v) => pure (some v)
  | some (.failure e) => throw e
  | _ => pure none

/-- The course of moving a cursor. -/
def ofAdvance (id : StreamId) : Cursor → Course (Option Value)
  | .source s =>
    match s.take? with
    | some (.pull name, _) => do
      let _ ← lift (takeItem id s)
      match ← lift (streamNamed? name) with
      | some other => perform (.pull other)
      | none => return none
    | _ => lift (takeItem id s >>= giveItem)
  | .mapped feed t => do
    match ← perform (.pull feed) with
    | none => return none
    | some v => return some (← perform (.transform t v))
  | .sliced _ _ (some 0) _ => return none
  | .sliced feed slice budget position =>
    let budget := budget.map (· - 1)
    let c := Cursor.sliced feed slice budget (position + 1)
    own (.change (Host.setCursor id (.sliced feed slice budget position))) fun _ =>
      call (.pull feed) fun
        | .ok none => done (.ok none)
        | .ok (some v) => own (.change (Host.setCursor id c)) fun _ =>
          if slice.contains position then done (.ok (some v)) else perform (.advance id c)
        | .error e => own (.change (Host.setCursor id c)) fun _ => done (.error e)

/-- The course of transforming an element. -/
def ofTransform : Transform → Value → Course Value
  | .filter f, v => perform (.eval f v)
  | .selector s, v => perform (.select s v)
  | .function f, v => done (f v)

end Course

/-- The course of a call. -/
def Task.course : (t : Task) → Course t.Gives
  | resolution id => .lift (resolveOnce id)
  | resolve v => .ofResolve v
  | eval f v => .ofEval f v
  | select s v => .ofSelect s v
  | gather s id => .ofGather s id
  | settle v => .ofSettle v
  | drain id => .ofDrain id
  | pull id => .ofPull id
  | advance id c => .ofAdvance id c
  | transform t v => .ofTransform t v

namespace Course

variable {n : Nat} (v : Value) (id : StreamId)

@[simp] theorem run_resolution (id : LinkId) :
    @run Value (perform (.resolution id)) n = resolveOnce id := run_perform _

@[simp] theorem run_resolve :
    @run Value (perform (.resolve v)) n = Evaluation.resolve n v := run_perform _

@[simp] theorem run_eval (f : Filter) :
    @run Value (perform (.eval f v)) n = Evaluation.eval n f v := run_perform _

@[simp] theorem run_select (s : Selector) :
    @run Value (perform (.select s v)) n = Evaluation.select n s v := run_perform _

@[simp] theorem run_gather (s : Selector) :
    @run (List Value) (perform (.gather s id)) n = Evaluation.gather n s id :=
  run_perform _

@[simp] theorem run_settle :
    @run Value (perform (.settle v)) n = Evaluation.settle n v := run_perform _

@[simp] theorem run_drain :
    @run (List Value) (perform (.drain id)) n = Evaluation.drain n id := run_perform _

@[simp] theorem run_pull :
    @run (Option Value) (perform (.pull id)) n = Evaluation.pull n id := run_perform _

@[simp] theorem run_advance (c : Cursor) :
    @run (Option Value) (perform (.advance id c)) n = Evaluation.advance n id c :=
  run_perform _

@[simp] theorem run_transform (t : Transform) :
    @run Value (perform (.transform t v)) n = Evaluation.transform n t v := run_perform _

theorem run_ofResolve : (ofResolve v).run n = Evaluation.resolve (n + 1) v := by
  unfold Evaluation.resolve
  cases v <;> simp [ofResolve]

theorem run_ofEval (f : Filter) : (ofEval f v).run n = Evaluation.eval (n + 1) f v := by
  unfold Evaluation.eval ofEval
  split <;> simp

theorem run_ofSelect (s : Selector) : (ofSelect s v).run n = Evaluation.select (n + 1) s v := by
  unfold Evaluation.select ofSelect
  split <;> simp

theorem run_ofGather (s : Selector) :
    (ofGather s id).run n = Evaluation.gather (n + 1) s id := by
  unfold Evaluation.gather ofGather
  simp only [run_bind, run_pull]
  congr 1
  funext taken
  cases taken <;> simp

theorem run_ofSettle : (ofSettle v).run n = Evaluation.settle (n + 1) v := by
  unfold Evaluation.settle
  cases v <;> simp [ofSettle]

theorem run_ofDrain : (ofDrain id).run n = Evaluation.drain (n + 1) id := by
  unfold Evaluation.drain ofDrain
  simp only [run_bind, run_pull]
  congr 1
  funext taken
  cases taken <;> simp

theorem run_ofPull : (ofPull id).run n = Evaluation.pull (n + 1) id := by
  unfold Evaluation.pull ofPull
  refine bind_congr fun found => ?_
  cases found with
  | none => exact run_lift _
  | some cell =>
    simp only
    split <;> rfl

theorem run_ofAdvance (c : Cursor) :
    (ofAdvance id c).run n = Evaluation.advance (n + 1) id c := by
  cases c with
  | source s =>
    unfold Evaluation.advance ofAdvance
    cases takes : s.take? with
    | none => simp [takeItem, takes, giveItem]
    | some out =>
      obtain ⟨item, s'⟩ := out
      cases item with
      | pull name =>
        simp only [takeItem, takes, run_bind, run_lift, bind_assoc, pure_bind]
        refine bind_congr fun _ => bind_congr fun _ => bind_congr fun found => ?_
        cases found <;> simp
      | _ => simp [takeItem, takes, giveItem]
  | mapped feed t =>
    unfold Evaluation.advance ofAdvance
    simp only [run_bind, run_pull]
    congr 1
    funext taken
    cases taken <;> simp
  | sliced feed slice budget position =>
    unfold Evaluation.advance
    split
    · next same => cases same
    · next same => cases same
    · next same =>
      cases same
      rfl
    · next same =>
      cases same
      simp only [ofAdvance, run]
      refine bind_congr fun _ => bind_congr fun result => ?_
      rcases result with e | _ | v
      · rfl
      · rfl
      · simp only [run]
        refine bind_congr fun _ => ?_
        split
        · rfl
        · exact run_perform _

theorem run_ofTransform (t : Transform) :
    (ofTransform t v).run n = Evaluation.transform (n + 1) t v := by
  unfold Evaluation.transform
  cases t <;> simp [ofTransform, run]

end Course

/-- A call runs its course, each call in it with one nested call less. -/
theorem Task.run_succ (t : Task) (n : Nat) : t.run (n + 1) = t.course.run n := by
  cases t with
  | resolution id => exact (Course.run_lift _).symm
  | resolve v => exact (Course.run_ofResolve v).symm
  | eval f v => exact (Course.run_ofEval v f).symm
  | select s v => exact (Course.run_ofSelect v s).symm
  | gather s id => exact (Course.run_ofGather id s).symm
  | settle v => exact (Course.run_ofSettle v).symm
  | drain id => exact (Course.run_ofDrain id).symm
  | pull id => exact (Course.run_ofPull id).symm
  | advance id c => exact (Course.run_ofAdvance id c).symm
  | transform t v => exact (Course.run_ofTransform v t).symm

/-- What is reached by a call, its course reaches. -/
theorem reaches_course {t : Task} {h h' : Host} {result : Except EvalError t.Gives} :
    Reaches t.course.run h result h' ↔ Reaches t.run h result h' := by
  rw [← reaches_succ (steady_task t)]
  simp only [Task.run_succ]

/-! ### Calls -/

namespace Course

variable {α : Type}

/-- In the course, which starts from the first host, the call is made, and it starts from the
second. What comes before it is through. -/
def Calls : Course α → Host → Task → Host → Prop
  | done _, _, _, _ => False
  | own r next, h, t, g => ∃ b h', r.outcome h = some (.ok b, h') ∧ (next b).Calls h' t g
  | call u next, h, t, g =>
    (t = u ∧ g = h) ∨ ∃ result h', Reaches u.run h result h' ∧ (next result).Calls h' t g

/-- While the course runs, from the first host, there comes to be the call, which starts from the
second. The calls that it is made in are listed, the innermost first; they are still under way. -/
inductive Nested (c : Course α) (h : Host) : List Task → Task → Host → Prop
  | start {t : Task} {g : Host} (calls : c.Calls h t g) : Nested c h [] t g
  | inside {stack : List Task} {t t' : Task} {g g' : Host} (nested : Nested c h stack t g)
      (calls : t.course.Calls g t' g') : Nested c h (t :: stack) t' g'

end Course

end Evaluation

end TreeQuery
