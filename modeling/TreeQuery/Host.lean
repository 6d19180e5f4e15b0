import TreeQuery.Host.Blueprint
import TreeQuery.Host.Error
import TreeQuery.Run

/-!
# Hosts

A host holds what links and streams stand for. A stream is a cursor: every pull moves it, whoever
pulls, so an element that was given once is gone for everyone who shares the stream. While a stream
produces an element it is busy, and a pull that comes upon it then is refused.

Three things may produce the elements of a stream: a source of the host's own, another stream whose
elements are transformed, or another stream of which a slice is taken. The host logs every
resolution of a link and every pull from a source.

## Main definitions

* `Resolver` — what resolutions of a link do
* `Source`, `Cursor` — where the elements of a stream come from
* `Event` — what the log records
* `Host` — links, streams, names and the log
* `Evaluation` — runs over a host
-/

namespace TreeQuery

/-! ### Links -/

/-- What one resolution of a link does. -/
inductive ResolverStep where
  /-- Give a value that is at hand. -/
  | give (v : Value)
  /-- Make a value. -/
  | make (b : Blueprint)
  /-- Fail for that reason. -/
  | failure (reason : String)

/-- What the resolutions of a link do, the next one first. The last one repeats. -/
structure Resolver where
  label : String
  current : ResolverStep
  later : List ResolverStep

/-- The resolver after one resolution. -/
def Resolver.advance (r : Resolver) : Resolver :=
  match r.later with
  | [] => r
  | step :: later => { r with current := step, later }

/-- Why a step fails, if it does. -/
def ResolverStep.failure? : ResolverStep → Option EvalError
  | failure reason => some (.linkFailure reason)
  | _ => none

/-! ### Streams -/

/-- What one pull from a source does. -/
inductive Item where
  /-- Give an element. -/
  | element (v : Value)
  /-- Fail. -/
  | failure (e : EvalError)
  /-- Pull from the stream that has this name at the time. If that stream has ended, this pull ends,
  and the next one takes the next item. -/
  | pull (name : String)

/-- Why an item fails on its own account, if it does. -/
def Item.failure? : Item → Option EvalError
  | failure e => some e
  | _ => none

/-- What a source has to give. -/
inductive Supply where
  /-- One item after the other, until none is left. -/
  | listed (items : List Item)
  /-- An element for every position. -/
  | endless (element : Nat → Value)

/-- A source of elements. -/
structure Source where
  label : String
  /-- Whether its pulls are shown in the log. -/
  shown : Bool
  supply : Supply
  /-- How many items were taken. -/
  position : Nat

/-- The next item of a source and the source after it, or nothing at its end. -/
def Source.take? (s : Source) : Option (Item × Source) :=
  let position := s.position + 1
  match s.supply with
  | .listed [] => none
  | .listed (item :: items) => some (item, { s with supply := .listed items, position })
  | .endless element => some (.element (element s.position), { s with position })

/-- What is done to the elements of a stream. -/
inductive Transform where
  /-- A filter is applied. -/
  | filter (f : Filter)
  /-- A step is taken. -/
  | selector (s : Selector)
  /-- A function is applied that has nothing to do with the host. -/
  | function (f : Value → Except EvalError Value)

/-- Where the elements of a stream come from. -/
inductive Cursor where
  | source (s : Source)
  /-- The elements of the stream `feed`, transformed. -/
  | mapped (feed : StreamId) (transform : Transform)
  /-- The elements of the stream `feed` at the positions of a slice. `budget` is how many more pulls
  there may be, if there is a limit, and `position` how many elements and failures there were. -/
  | sliced (feed : StreamId) (slice : Slice) (budget : Option Nat) (position : Nat)

/-- A stream: its cursor, and whether it is producing an element. -/
structure StreamCell where
  cursor : Cursor
  busy : Bool

/-! ### The log -/

/-- What the log records. A failure is the host's own; one that a source hands on belongs to the
event of the stream that it comes from. -/
inductive Event where
  /-- A link was resolved. -/
  | resolution (link : LinkId) (failure : Option EvalError)
  /-- The item at `position` of a source was taken. -/
  | pull (stream : StreamId) (position : Nat) (failure : Option EvalError)
  /-- A source was pulled that has no items left. -/
  | exhausted (stream : StreamId)

/-- What links and streams stand for, the values that have names, and what happened so far. -/
structure Host where
  links : Array Resolver
  streams : Array StreamCell
  names : List (String × Value)
  log : Array Event

namespace Host

/-- A host without links, streams and names, where nothing has happened. -/
def empty : Host := ⟨#[], #[], [], #[]⟩

/-- The name that a link goes by. -/
def linkLabel? (h : Host) (id : LinkId) : Option String :=
  (h.links[id.index]?).map Resolver.label

/-- The name that a stream goes by. Streams that came about by transforming or slicing others have
none. -/
def streamLabel? (h : Host) (id : StreamId) : Option String :=
  match (h.streams[id.index]?).map StreamCell.cursor with
  | some (.source s) => some s.label
  | _ => none

/-- The name under which the log shows the pulls of a stream, if it does. -/
def shownLabel? (h : Host) (id : StreamId) : Option String :=
  match (h.streams[id.index]?).map StreamCell.cursor with
  | some (.source s) => if s.shown then some s.label else none
  | _ => none

/-- The name of the link or stream that an event belongs to, unless it is not to be shown. -/
def label? (h : Host) : Event → Option String
  | .resolution id _ => h.linkLabel? id
  | .pull id _ _ => h.shownLabel? id
  | .exhausted id => h.shownLabel? id

/-- The text of an event, unless it is not to be shown. -/
def describe? (h : Host) (event : Event) : Option String :=
  (h.label? event).map fun label =>
    match event with
    | .resolution .. => label ++ ":resolve"
    | .pull _ position _ => label ++ ":" ++ toString position
    | .exhausted _ => label ++ ":end"

/-- Record an event. -/
def record (event : Event) (h : Host) : Host := { h with log := h.log.push event }

/-- Give a value a name. -/
def define (name : String) (v : Value) (h : Host) : Host :=
  { h with names := putMember name v h.names }

/-- Add a link. -/
def addLink (r : Resolver) (h : Host) : LinkId × Host :=
  (⟨h.links.size⟩, { h with links := h.links.push r })

/-- Add a stream. -/
def addStream (c : Cursor) (h : Host) : StreamId × Host :=
  (⟨h.streams.size⟩, { h with streams := h.streams.push ⟨c, false⟩ })

/-- Change a stream. -/
def modifyStream (id : StreamId) (f : StreamCell → StreamCell) (h : Host) : Host :=
  { h with streams := h.streams.modify id.index f }

/-- Let the elements of a stream come from elsewhere. -/
def setCursor (id : StreamId) (c : Cursor) : Host → Host :=
  modifyStream id fun cell => { cell with cursor := c }

/-- Mark whether a stream is producing an element. -/
def setBusy (id : StreamId) (busy : Bool) : Host → Host :=
  modifyStream id fun cell => { cell with busy }

end Host

/-- Runs over a host. -/
abbrev Evaluation : Type → Type := Run Host EvalError

end TreeQuery
