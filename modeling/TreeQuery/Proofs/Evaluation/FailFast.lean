import TreeQuery.Proofs.Evaluation.Course

/-!
# The first failure is the last thing that happens

Links are resolved and streams are pulled on the way, and any of this may fail. The courses of the
evaluator are such that a call which fails is the last one: whatever it was made for hands the same
failure on and makes no further call. On the way out the streams that were being pulled are put back
in order, which the log does not show. From one call to those around it, a failure comes out of all
of them; and every failure that comes out began in one that a call made by itself.

## Main definitions

* `Event.failure?` — the failure that the log has with an event
* `Evaluation.FailsLast` — of what happened, at most the last failed, and that is the result
* `Evaluation.Course.FailsFast` — a failed call is the last one in the course
* `Evaluation.Course.Breaks` — the course fails by itself

## Main statements

* `Evaluation.Task.failsFast` — a failed call is the last one in all courses of the evaluator
* `Evaluation.Course.Nested.fails` — a failure comes out of all calls that it happens in
* `Evaluation.Course.exists_origin` — every failure has an origin
-/

namespace TreeQuery

/-- The failure that the log has with an event. -/
def Event.failure? : Event → Option EvalError
  | resolution _ failure => failure
  | pull _ _ failure => failure
  | exhausted _ => none

namespace Evaluation

open Host Run

variable {α β : Type} {h g g' h' : Host} {e : EvalError}

/-! ### What the log shows -/

/-- From the first host to the second the log has grown. No event in that part failed but maybe the
last one, and if it did, its failure is the result. -/
def FailsLast (h : Host) (result : Except EvalError α) (h' : Host) : Prop :=
  ∃ events, h'.log = h.log ++ events ∧ ∀ i event e, events[i]? = some event →
    event.failure? = some e → i + 1 = events.size ∧ result = .error e

/-- Every outcome of the evaluation is like that. -/
def Candid (r : Evaluation α) : Prop :=
  ∀ h result h', r.outcome h = some (result, h') → FailsLast h result h'

theorem failsLast_of_log {result : Except EvalError α} (same : h'.log = h.log) :
    FailsLast h result h' :=
  ⟨#[], by simp [same], by simp⟩

theorem failsLast_of_event {event : Event} {result : Except EvalError α}
    (logged : h'.log = h.log.push event)
    (fails : ∀ e, event.failure? = some e → result = .error e) : FailsLast h result h' := by
  refine ⟨#[event], by simp [logged], fun i event' e at_ failed => ?_⟩
  cases i with
  | zero =>
    cases at_
    exact ⟨rfl, fails e failed⟩
  | succ i => simp at at_

/-- After a part in which nothing has failed, anything may follow. -/
theorem FailsLast.trans {a : α} {result : Except EvalError β} (first : FailsLast h (.ok a) g)
    (second : FailsLast g result h') : FailsLast h result h' := by
  obtain ⟨events, logged, calm⟩ := first
  obtain ⟨events', logged', last⟩ := second
  refine ⟨events ++ events', by rw [logged', logged, Array.append_assoc], ?_⟩
  intro i event e at_ failed
  rw [Array.getElem?_append] at at_
  split at at_
  · -- An event of the first part does not fail, since that part came to a value.
    cases (calm i event e at_ failed).2
  · obtain ⟨last, same⟩ := last _ event e at_ failed
    refine ⟨?_, same⟩
    simp only [Array.size_append]
    omega

theorem FailsLast.congr {result : Except EvalError α} {result' : Except EvalError β}
    (fails : FailsLast h result h') (same : ∀ e, result = .error e → result' = .error e) :
    FailsLast h result' h' := by
  obtain ⟨events, logged, last⟩ := fails
  exact ⟨events, logged, fun i event e at_ failed =>
    ⟨(last i event e at_ failed).1, same e (last i event e at_ failed).2⟩⟩

theorem FailsLast.of_log {result : Except EvalError α} (fails : FailsLast h result g)
    (same : h'.log = g.log) : FailsLast h result h' := by
  obtain ⟨events, logged, last⟩ := fails
  exact ⟨events, by rw [same, logged], last⟩

theorem Candid.bind {r : Evaluation α} {f : α → Evaluation β} (first : Candid r)
    (second : ∀ a, Candid (f a)) : Candid (r >>= f) := by
  intro h result h' ho
  rw [outcome_bind] at ho
  split at ho
  · cases ho
  · next a g first' => exact (first h _ g first').trans (second a g _ h' ho)
  · next e g first' =>
    cases ho
    exact (first h _ _ first').congr fun _ same => congrArg _ (Except.error.inj same)

/-- An evaluation that leaves the log alone. -/
def Unlogged (r : Evaluation α) : Prop :=
  ∀ h result h', r.outcome h = some (result, h') → h'.log = h.log

theorem Unlogged.candid {r : Evaluation α} (unlogged : Unlogged r) : Candid r :=
  fun h result h' ho => failsLast_of_log (unlogged h result h' ho)

theorem unlogged_pure (a : α) : Unlogged (pure a) := by
  intro h result h' ho
  cases ho
  rfl

theorem unlogged_throw (e : EvalError) : Unlogged (throw e : Evaluation α) := by
  intro h result h' ho
  cases ho
  rfl

theorem unlogged_modifyStream (id : StreamId) (f : StreamCell → StreamCell) :
    Unlogged (.change (modifyStream id f)) := by
  intro h result h' ho
  cases ho
  rfl

theorem unlogged_read (f : Host → α) : Unlogged (.read f) := by
  intro h result h' ho
  cases ho
  rfl

theorem unlogged_cutOff : Unlogged (.cutOff : Evaluation α) :=
  fun _ _ _ ho => nomatch ho

theorem unlogged_mapStream (id : StreamId) (t : Transform) : Unlogged (mapStream id t) := by
  intro h result h' ho
  cases ho
  rfl

theorem unlogged_sliceStream (id : StreamId) (s : Slice) : Unlogged (sliceStream id s) := by
  intro h result h' ho
  unfold sliceStream at ho
  split at ho <;> cases ho <;> rfl

theorem unlogged_elementAt (xs : List α) (i : Nat) : Unlogged (elementAt xs i) := by
  unfold elementAt
  split
  · exact unlogged_pure _
  · exact unlogged_throw _

theorem unlogged_operate (f : Filter) (op : Operator) (a b : Value) :
    Unlogged (operate f op a b) := by
  unfold operate
  split
  · exact unlogged_pure _
  · exact unlogged_throw _

/-! ### Making values -/

mutual

theorem log_build : ∀ (b : Blueprint) (h : Host), (b.build h).2.log = h.log
  | .value _, h => rfl
  | .array items, h => by simpa [Blueprint.build] using log_buildAll items h
  | .object members, h => by simpa [Blueprint.build] using log_buildMembers members h
  | .record _ values, h => by simpa [Blueprint.build] using log_buildAll values h
  | .named _, h => rfl
  | .link label plan, h => by simpa [Blueprint.build] using log_buildLink plan label h
  | .stream label plan, h => by simpa [Blueprint.build] using log_buildStream plan label h

theorem log_buildLink : ∀ (plan : LinkPlan) (label : String) (h : Host),
    (plan.build label h).2.log = h.log
  | .target b, label, h => by simpa [LinkPlan.build, addLink] using log_build b h
  | .steps .., label, h => rfl

theorem log_buildStream : ∀ (plan : StreamPlan) (label : String) (h : Host),
    (plan.build label h).2.log = h.log
  | .plain elements, label, h => by
    simpa [StreamPlan.build, addStream] using log_buildAll elements h
  | .counting .., label, h => rfl
  | .items items, label, h => by simpa [StreamPlan.build, addStream] using log_buildItems items h

theorem log_buildAll : ∀ (bs : List Blueprint) (h : Host), (buildAll bs h).2.log = h.log
  | [], h => rfl
  | b :: bs, h => by
    simpa [buildAll, log_build b h] using log_buildAll bs (b.build h).2

theorem log_buildMembers : ∀ (bs : List (String × Blueprint)) (h : Host),
    (buildMembers bs h).2.log = h.log
  | [], h => rfl
  | (_, b) :: bs, h => by
    simpa [buildMembers, log_build b h] using log_buildMembers bs (b.build h).2

theorem log_buildItems : ∀ (plans : List ItemPlan) (h : Host), (buildItems plans h).2.log = h.log
  | [], h => rfl
  | .element b :: plans, h => by
    simpa [buildItems, log_build b h] using log_buildItems plans (b.build h).2
  | .failure _ :: plans, h => by simpa [buildItems] using log_buildItems plans h
  | .pull _ :: plans, h => by simpa [buildItems] using log_buildItems plans h

end

/-! ### Events -/

/-- Resolving a link is one event. If it fails, so does the evaluation. -/
theorem candid_resolveOnce (id : LinkId) : Candid (resolveOnce id) := by
  intro h result h' ho
  simp only [resolveOnce, outcome_ofOutcome] at ho
  split at ho
  · cases ho
  · split at ho
    · next step =>
      cases ho
      exact failsLast_of_event rfl (by simp [step, ResolverStep.failure?, Event.failure?])
    · next step =>
      cases ho
      exact failsLast_of_event (log_build _ _)
        (by simp [step, ResolverStep.failure?, Event.failure?])
    · next step =>
      cases ho
      exact failsLast_of_event rfl (by simp [step, ResolverStep.failure?, Event.failure?])

/-- A pull from a source is one event. If the item is a failure, that is what comes of it. -/
theorem candid_takeItem (id : StreamId) (s : Source) :
    Candid (takeItem id s >>= Course.giveItem) := by
  intro h result h' ho
  cases takes : s.take? with
  | none =>
    simp only [takeItem, takes, Course.giveItem, bind_assoc, pure_bind] at ho
    cases ho
    exact failsLast_of_event rfl fun _ failed => by cases failed
  | some out =>
    obtain ⟨item, s'⟩ := out
    simp only [takeItem, takes, bind_assoc, pure_bind] at ho
    cases item <;> simp only [Course.giveItem] at ho <;> cases ho <;>
      exact failsLast_of_event rfl (by simp [Item.failure?, Event.failure?])

/-- Where a source hands on the elements of another one, its own event is no failure. -/
theorem candid_takeItem_pull {id : StreamId} {s s' : Source} {name : String}
    (takes : s.take? = some (.pull name, s')) : Candid (takeItem id s) := by
  intro h result h' ho
  simp only [takeItem, takes] at ho
  cases ho
  exact failsLast_of_event rfl fun _ failed => by cases failed

/-! ### Courses -/

namespace Course

/-- What is left of the course makes no call and adds nothing to the log. It ends with the
failure. -/
def GivesUp (e : EvalError) : Course α → Prop
  | done result => result = .error e
  | own r next => (∀ h, ∃ b h', r.outcome h = some (.ok b, h') ∧ h'.log = h.log) ∧
      ∀ b, (next b).GivesUp e
  | call .. => False

/-- After a call that fails the course gives up with the same failure, and its own operations are
candid. -/
def FailsFast : Course α → Prop
  | done _ => True
  | own r next => Candid r ∧ ∀ b, (next b).FailsFast
  | call _ next => (∀ a, (next (.ok a)).FailsFast) ∧ ∀ e, (next (.error e)).GivesUp e

theorem GivesUp.bind {c : Course α} (gives : c.GivesUp e) (f : α → Course β) :
    (c >>= f).GivesUp e := by
  change (c.bind f).GivesUp e
  induction c with
  | done result =>
    cases gives
    rfl
  | own r next ih => exact ⟨gives.1, fun b => ih b (gives.2 b)⟩
  | call t next ih => exact gives.elim

theorem FailsFast.bind {c : Course α} {f : α → Course β} (first : c.FailsFast)
    (second : ∀ a, (f a).FailsFast) : (c >>= f).FailsFast := by
  change (c.bind f).FailsFast
  induction c with
  | done result =>
    cases result with
    | ok a => exact second a
    | error e => trivial
  | own r next ih => exact ⟨first.1, fun b => ih b (first.2 b)⟩
  | call t next ih =>
    exact ⟨fun a => ih _ (first.1 a), fun e => (first.2 e).bind f⟩

theorem failsFast_pure (a : α) : (pure a : Course α).FailsFast := trivial

theorem failsFast_lift {r : Evaluation α} (candid : Candid r) : (lift r).FailsFast :=
  ⟨candid, failsFast_pure⟩

theorem failsFast_perform (t : Task) : (perform t).FailsFast :=
  ⟨fun _ => trivial, fun _ => rfl⟩

theorem failsFast_mapM {f : α → Course β} (each : ∀ a, (f a).FailsFast) (as : List α) :
    (as.mapM f).FailsFast := by
  induction as with
  | nil => exact failsFast_pure _
  | cons a as ih =>
    rw [List.mapM_cons]
    exact (each a).bind fun _ => ih.bind fun _ => failsFast_pure _

theorem failsFast_foldlM {f : β → α → Course β} (each : ∀ b a, (f b a).FailsFast) (b : β)
    (as : List α) : (as.foldlM f b).FailsFast := by
  induction as generalizing b with
  | nil => exact failsFast_pure _
  | cons a as ih =>
    rw [List.foldlM_cons]
    exact (each b a).bind ih

theorem givesUp_modifyStream (id : StreamId) (f : StreamCell → StreamCell) (e : EvalError) :
    (own (.change (modifyStream id f)) fun _ => done (.error e) : Course α).GivesUp e :=
  ⟨fun h => ⟨(), h.modifyStream id f, rfl, rfl⟩, fun _ => rfl⟩

theorem failsFast_ofEval (f : Filter) (v : Value) : (ofEval f v).FailsFast := by
  unfold ofEval
  split
  · exact (failsFast_perform _).bind fun _ => failsFast_perform _
  · exact failsFast_perform _
  · exact failsFast_foldlM (fun v s => failsFast_perform (.select s v)) _ _
  · exact failsFast_foldlM (fun v f => failsFast_perform (.eval f v)) _ _
  · exact failsFast_lift (unlogged_mapStream _ _).candid
  · exact failsFast_pure _
  · exact failsFast_pure _
  · exact failsFast_pure _
  · exact (failsFast_perform _).bind fun _ => (failsFast_perform _).bind fun _ =>
      (failsFast_perform _).bind fun _ => (failsFast_perform _).bind fun _ =>
        failsFast_lift (unlogged_operate _ _ _ _).candid
  · refine (failsFast_mapM (fun _ => ?_) _).bind fun _ => failsFast_pure _
    exact (failsFast_perform _).bind fun _ => failsFast_perform _
  · refine (failsFast_mapM (fun _ => ?_) _).bind fun _ => failsFast_pure _
    exact (failsFast_perform _).bind fun _ => (failsFast_perform _).bind fun _ =>
      failsFast_pure _

theorem failsFast_ofSelect (s : Selector) (v : Value) : (ofSelect s v).FailsFast := by
  unfold ofSelect
  split
  · exact (failsFast_perform _).bind fun _ => failsFast_perform _
  · exact failsFast_pure _
  · exact (failsFast_mapM (fun v => failsFast_perform (.select _ v)) _).bind fun _ =>
      failsFast_pure _
  · exact failsFast_lift (unlogged_mapStream _ _).candid
  · exact failsFast_pure _
  · exact failsFast_lift (unlogged_elementAt _ _).candid
  · exact (failsFast_lift (unlogged_elementAt _ _).candid).bind fun _ => failsFast_pure _
  · exact (failsFast_lift (unlogged_elementAt _ _).candid).bind fun _ => failsFast_pure _
  · exact (failsFast_perform _).bind fun _ => failsFast_pure _
  · exact failsFast_pure _
  · exact failsFast_pure _
  · exact failsFast_pure _
  · exact failsFast_pure _
  · exact failsFast_lift (unlogged_sliceStream _ _).candid
  · exact failsFast_pure _

theorem failsFast_ofGather (s : Selector) (id : StreamId) : (ofGather s id).FailsFast := by
  refine (failsFast_perform _).bind fun taken => ?_
  cases taken with
  | none => exact failsFast_pure _
  | some v => exact (failsFast_perform _).bind fun _ => (failsFast_perform _).bind fun _ =>
      failsFast_pure _

theorem failsFast_ofSettle (v : Value) : (ofSettle v).FailsFast := by
  unfold ofSettle
  split
  · exact (failsFast_perform _).bind fun _ => failsFast_pure _
  · exact (failsFast_mapM (fun v => failsFast_perform (.settle v)) _).bind fun _ =>
      failsFast_pure _
  · refine (failsFast_mapM (fun _ => ?_) _).bind fun _ => failsFast_pure _
    exact (failsFast_perform _).bind fun _ => failsFast_pure _
  · exact (failsFast_mapM (fun v => failsFast_perform (.settle v)) _).bind fun _ =>
      failsFast_pure _
  · exact failsFast_pure _

theorem failsFast_ofDrain (id : StreamId) : (ofDrain id).FailsFast := by
  refine (failsFast_perform _).bind fun taken => ?_
  cases taken with
  | none => exact failsFast_pure _
  | some v => exact (failsFast_perform _).bind fun _ => (failsFast_perform _).bind fun _ =>
      failsFast_pure _

/-- A pull that fails leaves its stream no longer busy, and does nothing more. -/
theorem failsFast_ofPull (id : StreamId) : (ofPull id).FailsFast := by
  refine ⟨(unlogged_read _).candid, fun found => ?_⟩
  cases found with
  | none => exact failsFast_lift unlogged_cutOff.candid
  | some cell =>
    have busy (b : Bool) : Candid (.change (setBusy id b)) := (unlogged_modifyStream _ _).candid
    simp only
    split
    · trivial
    · exact ⟨busy true, fun _ => ⟨fun _ => ⟨busy false, fun _ => trivial⟩,
        fun _ => givesUp_modifyStream _ _ _⟩⟩

/-- A slice counts the position of a failure, and does nothing more. -/
theorem failsFast_ofAdvance (id : StreamId) (c : Cursor) : (ofAdvance id c).FailsFast := by
  unfold ofAdvance
  split
  · split
    · next takes =>
      refine (failsFast_lift (candid_takeItem_pull takes)).bind fun _ => ?_
      refine (failsFast_lift (unlogged_read _).candid).bind fun found => ?_
      cases found with
      | none => exact failsFast_pure _
      | some other => exact failsFast_perform _
    · exact failsFast_lift (candid_takeItem _ _)
  · refine (failsFast_perform _).bind fun taken => ?_
    cases taken with
    | none => exact failsFast_pure _
    | some v => exact (failsFast_perform _).bind fun _ => failsFast_pure _
  · exact failsFast_pure _
  · have moved (c : Cursor) : Candid (.change (setCursor id c)) :=
      (unlogged_modifyStream _ _).candid
    refine ⟨moved _, fun _ => ⟨fun taken => ?_, fun _ => givesUp_modifyStream _ _ _⟩⟩
    cases taken with
    | none => trivial
    | some v =>
      refine ⟨moved _, fun _ => ?_⟩
      split
      · trivial
      · exact failsFast_perform _

theorem failsFast_ofTransform (t : Transform) (v : Value) : (ofTransform t v).FailsFast := by
  cases t with
  | function f => trivial
  | _ => exact failsFast_perform _

end Course

/-- In all courses of the evaluator a call that fails is the last one. -/
theorem Task.failsFast (t : Task) : t.course.FailsFast := by
  cases t with
  | resolution id => exact Course.failsFast_lift (candid_resolveOnce id)
  | resolve v =>
    cases v with
    | link id => exact (Course.failsFast_perform _).bind fun _ => Course.failsFast_perform _
    | _ => exact Course.failsFast_pure _
  | eval f v => exact Course.failsFast_ofEval f v
  | select s v => exact Course.failsFast_ofSelect s v
  | gather s id => exact Course.failsFast_ofGather s id
  | settle v => exact Course.failsFast_ofSettle v
  | drain id => exact Course.failsFast_ofDrain id
  | pull id => exact Course.failsFast_ofPull id
  | advance id c => exact Course.failsFast_ofAdvance id c
  | transform t v => exact Course.failsFast_ofTransform t v

/-! ### Runs -/

/-- Once it gives up, the course comes to the failure, and the log stays as it is. -/
theorem Course.GivesUp.reaches {c : Course α} (gives : c.GivesUp e) (h : Host) :
    ∃ h', Reaches c.run h (.error e) h' ∧ h'.log = h.log := by
  induction c generalizing h with
  | done result =>
    cases gives
    exact ⟨h, ⟨0, rfl⟩, rfl⟩
  | own r next ih =>
    obtain ⟨b, g, does, same⟩ := gives.1 h
    obtain ⟨h', ⟨n, ho⟩, same'⟩ := ih b (gives.2 b) g
    refine ⟨h', ⟨n, ?_⟩, same'.trans same⟩
    rw [run, outcome_bind, does]
    exact ho
  | call t next => exact gives.elim

/-- Once it gives up, the course makes no call. -/
theorem Course.GivesUp.not_calls {c : Course α} (gives : c.GivesUp e) {t : Task} :
    ¬ c.Calls h t g := by
  induction c generalizing h with
  | done result => exact id
  | own r next ih =>
    rintro ⟨b, _, _, calls⟩
    exact ih b (gives.2 b) calls
  | call u next => exact gives.elim

/-- Where calls are candid, a course is. -/
theorem Course.FailsFast.candid {c : Course α} (fast : c.FailsFast) {n : Nat}
    (calls : ∀ t : Task, Candid (t.run n)) : Candid (c.run n) := by
  induction c with
  | done result =>
    cases result with
    | ok a => exact (unlogged_pure a).candid
    | error e => exact (unlogged_throw e).candid
  | own r next ih => exact fast.1.bind fun b => ih b (fast.2 b)
  | call t next ih =>
    intro h result h' ho
    rw [run, outcome_bind, outcome_attempt] at ho
    cases called : (t.run n).outcome h with
    | none =>
      rw [called] at ho
      cases ho
    | some out =>
      obtain ⟨given, g⟩ := out
      rw [called] at ho
      have first := calls t h given g called
      cases given with
      | ok a => exact first.trans (ih _ (fast.1 a) g result h' ho)
      | error e =>
        obtain ⟨g', reached, same⟩ := (fast.2 e).reaches g
        obtain ⟨rfl, rfl⟩ := reached.unique ⟨n, ho⟩ (steady_run _)
        exact (first.congr fun _ same => congrArg _ (Except.error.inj same)).of_log same

theorem candid_run (n : Nat) (t : Task) : Candid (t.run n) := by
  induction n generalizing t with
  | zero =>
    cases t with
    | resolution id => exact candid_resolveOnce id
    | _ => exact unlogged_cutOff.candid
  | succ n ih =>
    rw [Task.run_succ]
    exact t.failsFast.candid ih

/-- A call that fails is the last one in its course, which comes to the same failure. -/
theorem Course.FailsFast.fails {c : Course α} (fast : c.FailsFast) {t : Task}
    (calls : c.Calls h t g) (fails : Reaches t.run g (.error e) g') :
    ∃ h', Reaches c.run h (.error e) h' ∧ h'.log = g'.log := by
  induction c generalizing h with
  | done result => exact calls.elim
  | own r next ih =>
    obtain ⟨b, h₁, does, calls⟩ := calls
    obtain ⟨h', ⟨n, ho⟩, same⟩ := ih b (fast.2 b) calls
    refine ⟨h', ⟨n, ?_⟩, same⟩
    rw [run, outcome_bind, does]
    exact ho
  | call u next ih =>
    have after {result : Except EvalError u.Gives} {h₁ h' : Host}
        (first : Reaches u.run h result h₁) (rest : Reaches (next result).run h₁ (.error e) h') :
        Reaches (call u next).run h (.error e) h' :=
      first.attempt.bind rest (steady_task u).attempt (steady_run _)
    rcases calls with ⟨rfl, rfl⟩ | ⟨result, h₁, first, calls⟩
    · obtain ⟨h', rest, same⟩ := (fast.2 e).reaches g'
      exact ⟨h', after fails rest, same⟩
    · cases result with
      | ok a =>
        obtain ⟨h', rest, same⟩ := ih _ (fast.1 a) calls
        exact ⟨h', after first rest, same⟩
      | error e' => exact ((fast.2 e').not_calls calls).elim

/-- A failure comes out of all calls that it happens in, and the log stays as it is meanwhile. -/
theorem Course.Nested.fails {c : Course α} (fast : c.FailsFast) {stack : List Task} {t : Task}
    (nested : c.Nested h stack t g) (fails : Reaches t.run g (.error e) g') :
    ∃ h', Reaches c.run h (.error e) h' ∧ h'.log = g'.log := by
  induction nested generalizing g' with
  | start calls => exact fast.fails calls fails
  | @inside stack t t' g _ _ calls ih =>
    obtain ⟨g₁, outer, same⟩ := t.failsFast.fails calls fails
    obtain ⟨h', reached, same'⟩ := ih (reaches_course.mp outer)
    exact ⟨h', reached, same'.trans same⟩

/-! ### Where a failure comes from -/

namespace Course

/-- The course fails by itself: a host operation fails, or the failure is its result, and no call
before that has failed. -/
def Breaks (e : EvalError) : Course α → Host → Prop
  | done result, _ => result = .error e
  | own r next, h => (∃ h', r.outcome h = some (.error e, h')) ∨
      ∃ b h', r.outcome h = some (.ok b, h') ∧ (next b).Breaks e h'
  | call t next, h => ∃ a h', Reaches t.run h (.ok a) h' ∧ (next (.ok a)).Breaks e h'

/-- What is called in a call of a course, is called in the course. -/
theorem Nested.within {c : Course α} {t u : Task} {stack : List Task} (calls : c.Calls h t g)
    (nested : t.course.Nested g stack u g') : c.Nested h (stack ++ [t]) u g' := by
  induction nested with
  | start calls' => exact .inside (.start calls) calls'
  | inside _ calls' ih => exact .inside ih calls'

end Course

end Evaluation

end TreeQuery
