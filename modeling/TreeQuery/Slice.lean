/-!
# Slices

A slice names a stretch of positions in a sequence: from a start, up to but not including a stop, or
to the end. The whole sequence has a mark of its own.

## Main definitions

* `Slice` — the stretches
* `Slice.bounds` — the stretch within a sequence of known length
* `Slice.contains` — whether a position belongs to it, the length unknown
-/

namespace TreeQuery

/-- A stretch of positions: from `start` up to but not including `stop`, to the end without a
`stop`, and everything when `all` is set. -/
structure Slice where
  start : Nat
  stop : Option Nat
  all : Bool
  deriving DecidableEq, Repr

namespace Slice

/-- Every position. -/
def everything : Slice := ⟨0, none, true⟩

/-- The positions from `start` up to `stop`. -/
def between (start : Nat) (stop : Option Nat) : Slice := ⟨start, stop, false⟩

/-- The first position and the one after the last in a sequence of `length` elements. -/
def bounds (s : Slice) (length : Nat) : Nat × Nat :=
  if s.all then (0, length)
  else
    let stop := (s.stop.map (min · length)).getD length
    (min s.start stop, stop)

/-- Whether the position `i` belongs to the slice. -/
def contains (s : Slice) (i : Nat) : Bool :=
  s.all || (s.start ≤ i && s.stop.all fun stop => i < stop)

/-- The elements of a list at the positions of a slice. -/
def apply {α : Type} (s : Slice) (xs : List α) : List α :=
  let (start, stop) := s.bounds xs.length
  (xs.take stop).drop start

theorem mem_of_mem_apply {α : Type} {s : Slice} {xs : List α} {x : α} (h : x ∈ s.apply xs) :
    x ∈ xs :=
  List.mem_of_mem_take (List.mem_of_mem_drop h)

/-- The text of a slice. -/
def describe (s : Slice) : String :=
  if s.all then "[:]"
  else "[" ++ toString s.start ++ ":" ++ (s.stop.map toString).getD "" ++ "]"

end Slice

end TreeQuery
