import TreeQuery.Slice

/-!
# Filters

A filter says what to take from a value and how to put it together. Selectors take parts; literals
stand for themselves; groups and mappings collect what several filters give; pipes hand the result
of one filter to the next.

## Main definitions

* `Selector`, `Operator`, `Filter` — the trees
* `Filter.label` — the name of a tree's outermost form
* `Filter.size` — how many forms a tree has
* `Filter.same` — equality of trees, literals compared as numbers
-/

namespace TreeQuery

/-- One step into a value. -/
inductive Selector where
  /-- The value itself. -/
  | identity
  /-- The member of that name. -/
  | key (name : String)
  /-- The element at that position, counting from zero. -/
  | index (i : Nat)
  /-- The elements of a stretch. -/
  | slice (s : Slice)
  deriving DecidableEq, Repr

/-- The operations on numbers. -/
inductive Operator where
  | multiply
  | add
  deriving DecidableEq, Repr

/-- The character that stands for an operation. -/
def Operator.symbol : Operator → String
  | multiply => "*"
  | add => "+"

/-- What to take from a value and how to put it together. -/
inductive Filter where
  /-- A text that stands for itself. -/
  | text (s : String)
  /-- A number that stands for itself. -/
  | number (x : Float)
  /-- The size of a value. -/
  | length
  /-- One step. -/
  | select (s : Selector)
  /-- Steps from left to right. -/
  | path (steps : List Selector)
  /-- A number made of two. -/
  | binary (op : Operator) (left right : Filter)
  /-- The results of several filters on one input, side by side. -/
  | group (members : List Filter)
  /-- An object with a result under each name. -/
  | mapping (entries : List (String × Filter))
  /-- Each stage works on what the stage before it gave. -/
  | pipe (stages : List Filter)

namespace Filter

/-- The name of a tree's outermost form. -/
def label : Filter → String
  | text _ => "string_literal"
  | number _ => "numeric_literal"
  | length => "length"
  | select .identity => "identity"
  | select (.key _) => "key_selector"
  | select (.index _) => "index_selector"
  | select (.slice _) => "index_range_selector"
  | path _ => "selector_chain"
  | binary .. => "binary_op"
  | group _ => "parallel_group"
  | mapping _ => "object_mapping"
  | pipe _ => "filter_chain"

mutual

/-- How many forms a tree is made of. -/
def size : Filter → Nat
  | binary _ left right => left.size + right.size + 1
  | group members => sizeOfAll members + 1
  | mapping entries => sizeOfEntries entries + 1
  | pipe stages => sizeOfAll stages + 1
  | _ => 1

/-- How many forms several trees are made of. -/
def sizeOfAll : List Filter → Nat
  | [] => 0
  | f :: fs => f.size + sizeOfAll fs

/-- How many forms several named trees are made of. -/
def sizeOfEntries : List (String × Filter) → Nat
  | [] => 0
  | (_, f) :: es => f.size + sizeOfEntries es

end

theorem size_pos (f : Filter) : 0 < f.size := by
  cases f <;> simp [size]

theorem size_le_of_mem {f : Filter} {fs : List Filter} (h : f ∈ fs) : f.size ≤ sizeOfAll fs := by
  induction fs with
  | nil => cases h
  | cons g gs ih =>
    rw [sizeOfAll]
    rcases List.mem_cons.mp h with rfl | h
    · omega
    · have := ih h
      omega

theorem size_le_of_mem_entries {e : String × Filter} {es : List (String × Filter)} (h : e ∈ es) :
    e.2.size ≤ sizeOfEntries es := by
  induction es with
  | nil => cases h
  | cons e' es ih =>
    rw [sizeOfEntries]
    rcases List.mem_cons.mp h with rfl | h
    · omega
    · have := ih h
      omega

mutual

/-- Equality of trees. Literals compare as numbers do: a zero equals its negative, NaN nothing. -/
def same : Filter → Filter → Bool
  | text s, text s' => s == s'
  | number x, number x' => x == x'
  | length, length => true
  | select s, select s' => s == s'
  | path steps, path steps' => steps == steps'
  | binary op l r, binary op' l' r' => op == op' && same l l' && same r r'
  | group ms, group ms' => sameAll ms ms'
  | mapping es, mapping es' => sameEntries es es'
  | pipe ss, pipe ss' => sameAll ss ss'
  | _, _ => false

/-- Equality of lists of trees. -/
def sameAll : List Filter → List Filter → Bool
  | [], [] => true
  | f :: fs, f' :: fs' => same f f' && sameAll fs fs'
  | _, _ => false

/-- Equality of lists of named trees, the names included. -/
def sameEntries : List (String × Filter) → List (String × Filter) → Bool
  | [], [] => true
  | (k, f) :: es, (k', f') :: es' => k == k' && same f f' && sameEntries es es'
  | _, _ => false

end

end Filter

end TreeQuery
