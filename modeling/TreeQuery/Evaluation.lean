import TreeQuery.Arithmetic
import TreeQuery.Host.Building

/-!
# Evaluating filters

A filter looks at what is there: it resolves a link before anything else, and leaves the elements of
a stream alone until they are pulled. Taking a member of a stream's elements, slicing it, or
applying a filter that makes something new of each element gives another stream.

Groups and mappings give their input to several filters, which may share streams in it. So each
member is settled, all its streams turned into arrays, before the next one starts.

Evaluation need not end: links may lead in circles, and streams may go on for ever. Its functions
carry an allowance of nested calls, and have no outcome when that is used up.

## Main definitions

* `Evaluation.resolveOnce`, `Evaluation.resolve` — what a link stands for
* `Evaluation.eval` — a filter applied to a value
* `Evaluation.select` — a step into a value
* `Evaluation.settle` — a value with all its streams turned into arrays
* `Evaluation.pull` — the next element of a stream
-/

namespace TreeQuery

namespace Evaluation

/-! ### Host operations -/

/-- Resolve a link by one step. The log has the resolution before its result is looked at. -/
def resolveOnce (id : LinkId) : Evaluation Value :=
  .ofOutcome fun h =>
    match h.links[id.index]? with
    | none => none
    | some r =>
      let h := { h with links := h.links.set! id.index r.advance }
      let h := h.record (.resolution id r.current.failure?)
      match r.current with
      | .give v => some (.ok v, h)
      | .make b =>
        let (v, h) := b.build h
        some (.ok v, h)
      | .failure reason => some (.error (.linkFailure reason), h)

/-- Make a stream. -/
def openStream (c : Cursor) : Evaluation StreamId :=
  .ofOutcome fun h =>
    let (id, h) := h.addStream c
    some (.ok id, h)

/-- The elements of a stream, transformed one by one as they are pulled. -/
def mapStream (id : StreamId) (t : Transform) : Evaluation Value := do
  return .stream (← openStream (.mapped id t))

/-- The elements of a stream at the positions of a slice. The slice of everything is the stream
itself. -/
def sliceStream (id : StreamId) (s : Slice) : Evaluation Value := do
  if s.all then return .stream id
  else return .stream (← openStream (.sliced id s s.stop 0))

/-- The stream that has a name, if a stream has it. -/
def streamNamed? (name : String) : Evaluation (Option StreamId) :=
  .read fun h =>
    match h.names.lookup name with
    | some (.stream id) => some id
    | _ => none

/-- Take the next item of a source, with its event in the log. -/
def takeItem (id : StreamId) (s : Source) : Evaluation (Option Item) :=
  match s.take? with
  | none => do
    .change (Host.record (.exhausted id))
    return none
  | some (item, s') => do
    .change (Host.setCursor id (.source s'))
    .change (Host.record (.pull id s.position item.failure?))
    return some item

/-! ### Parts of sequences -/

/-- The element of a sequence at a position. -/
def elementAt {α : Type} (xs : List α) (i : Nat) : Evaluation α :=
  match xs[i]? with
  | some x => pure x
  | none => throw (.indexOutOfRange i xs.length)

/-- The result of an operation, or the failure of operands that are not both numbers. -/
def operate (operation : Filter) (op : Operator) (a b : Value) : Evaluation Value :=
  match a.number?, b.number? with
  | some x, some y => pure (.float (op.apply x y))
  | _, _ => throw (.notNumbers operation a.kind b.kind)

/-! ### Evaluation -/

/-- Resolve a value until it is no link. -/
def resolve : (allowance : Nat) → Value → Evaluation Value
  | 0, _ => .cutOff
  | n + 1, v =>
    match v with
    | .link id => do resolve n (← resolveOnce id)
    | _ => pure v

mutual

/-- Apply a filter to a value. -/
def eval : (allowance : Nat) → Filter → Value → Evaluation Value
  | 0, _, _ => .cutOff
  | n + 1, f, v =>
    match f, v with
    -- Whatever the filter, it sees no link.
    | _, .link id => do eval n f (← resolveOnce id)
    | .select s, _ => select n s v
    | .path steps, _ => steps.foldlM (fun v s => select n s v) v
    | .pipe stages, _ => stages.foldlM (fun v f => eval n f v) v
    -- The other filters make something new of every element, when it is pulled.
    | _, .stream id => mapStream id (.filter f)
    | .text s, _ => pure (.string s)
    | .number x, _ => pure (.float x)
    | .length, _ => pure ((v.size?.map Value.ofCount).getD .null)
    | .binary op left right, _ => do
      let a ← eval n left v
      let b ← eval n right v
      let a ← resolve n a
      let b ← resolve n b
      operate f op a b
    -- The members share the streams in their input, so one is settled before the next one starts.
    | .group members, _ => do
      let results ← members.mapM fun member => do settle n (← eval n member v)
      return .array results
    | .mapping entries, _ => do
      let results ← entries.mapM fun (name, entry) => do
        return (name, ← settle n (← eval n entry v))
      return .ofMembers results

/-- Take a step into a value. -/
def select : (allowance : Nat) → Selector → Value → Evaluation Value
  | 0, _, _ => .cutOff
  | n + 1, s, v =>
    match s, v with
    | _, .link id => do select n s (← resolveOnce id)
    | .identity, _ => pure v
    | .key _, .array items => do return .array (← items.mapM fun item => select n s item)
    | .key _, .stream id => mapStream id (.selector s)
    | .key name, _ => pure ((v.member? name).getD .null)
    | .index i, .array items => elementAt items i
    | .index i, .string text => do return .string (.singleton (← elementAt text.toList i))
    | .index i, .bytes bs => do return .integer (.ofNat (← elementAt bs i).toNat)
    | .index _, .stream id => do return .array (← gather n s id)
    | .index _, _ => pure .null
    | .slice r, .array items => pure (.array (r.apply items))
    | .slice r, .string text => pure (.string (.ofList (r.apply text.toList)))
    | .slice r, .bytes bs => pure (.bytes (r.apply bs))
    | .slice r, .stream id => sliceStream id r
    | .slice _, _ => pure .null

/-- Take a step into every element that a stream still has. -/
def gather : (allowance : Nat) → Selector → StreamId → Evaluation (List Value)
  | 0, _, _ => .cutOff
  | n + 1, s, id => do
    match ← pull n id with
    | none => return []
    | some v =>
      let v ← select n s v
      return v :: (← gather n s id)

/-- Turn every stream in a value into an array of its elements, settled in their turn. Links are
left alone. -/
def settle : (allowance : Nat) → Value → Evaluation Value
  | 0, _ => .cutOff
  | n + 1, v =>
    match v with
    | .stream id => do return .array (← drain n id)
    | .array items => do return .array (← items.mapM fun item => settle n item)
    | .object members => do
      return .object (← members.mapM fun (name, member) => do return (name, ← settle n member))
    | .record type values => do return .record type (← values.mapM fun v => settle n v)
    | _ => pure v

/-- Settle every element that a stream still has. -/
def drain : (allowance : Nat) → StreamId → Evaluation (List Value)
  | 0, _ => .cutOff
  | n + 1, id => do
    match ← pull n id with
    | none => return []
    | some v =>
      let v ← settle n v
      return v :: (← drain n id)

/-- Ask a stream for its next element; there is none when it has ended. A stream that is producing
an element already refuses, and is not moved. -/
def pull : (allowance : Nat) → StreamId → Evaluation (Option Value)
  | 0, _ => .cutOff
  | n + 1, id => do
    match ← Run.read fun h => h.streams[id.index]? with
    | none => .cutOff
    | some cell =>
      if cell.busy then throw .streamInUse
      else
        -- A failure must not leave the stream busy.
        .change (Host.setBusy id true)
        let result ← Run.attempt (advance n id cell.cursor)
        .change (Host.setBusy id false)
        .ofExcept result

/-- Move the cursor of a stream to its next element. -/
def advance : (allowance : Nat) → StreamId → Cursor → Evaluation (Option Value)
  | 0, _, _ => .cutOff
  | n + 1, id, c =>
    match c with
    | .source s => do
      match ← takeItem id s with
      | none => return none
      | some (.element v) => return some v
      | some (.failure e) => throw e
      | some (.pull name) =>
        match ← streamNamed? name with
        | some other => pull n other
        | none => return none
    | .mapped feed t => do
      match ← pull n feed with
      | none => return none
      | some v => return some (← transform n t v)
    | .sliced _ _ (some 0) _ => return none
    | .sliced feed slice budget position => do
      -- The pull counts even if it finds the end.
      let budget := budget.map (· - 1)
      .change (Host.setCursor id (.sliced feed slice budget position))
      match ← Run.attempt (pull n feed) with
      | .ok none => return none
      | .ok (some v) =>
        let c := Cursor.sliced feed slice budget (position + 1)
        .change (Host.setCursor id c)
        if slice.contains position then return some v else advance n id c
      -- A failure has a position too, and passes wherever that is.
      | .error e =>
        .change (Host.setCursor id (.sliced feed slice budget (position + 1)))
        throw e

/-- Transform an element. -/
def transform : (allowance : Nat) → Transform → Value → Evaluation Value
  | 0, _, _ => .cutOff
  | n + 1, t, v =>
    match t with
    | .filter f => eval n f v
    | .selector s => select n s v
    | .function f => .ofExcept (f v)

end

end Evaluation

end TreeQuery
