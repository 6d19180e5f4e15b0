import TreeQuery.Value

/-!
# Blueprints

A blueprint says how to make a value that may hold new links and streams. Values without them are
their own blueprints; values that exist already are called by name.

## Main definitions

* `Blueprint` — how to make a value
* `LinkPlan`, `StepPlan` — how to make a link, and what each resolution of it does
* `StreamPlan`, `ItemPlan` — how to make a stream, and what each pull from it does
-/

namespace TreeQuery

mutual

/-- How to make a value. -/
inductive Blueprint where
  /-- A value as it is. -/
  | value (v : Value)
  | array (items : List Blueprint)
  /-- An object; members given later replace earlier ones of the same name. -/
  | object (members : List (String × Blueprint))
  | record (type : RecordType) (values : List Blueprint)
  /-- The value that has this name when the blueprint is used. -/
  | named (name : String)
  /-- A new link. -/
  | link (label : String) (plan : LinkPlan)
  /-- A new stream. -/
  | stream (label : String) (plan : StreamPlan)

/-- How to make a link. -/
inductive LinkPlan where
  /-- The target is made once, with the link, and every resolution gives it. -/
  | target (b : Blueprint)
  /-- The resolutions follow these steps; the last one repeats. -/
  | steps (first : StepPlan) (later : List StepPlan)

/-- What one resolution of a link does. -/
inductive StepPlan where
  /-- Make a value. -/
  | make (b : Blueprint)
  /-- Fail for that reason. -/
  | failure (reason : String)

/-- How to make a stream. -/
inductive StreamPlan where
  /-- The elements are made with the stream; its pulls are not shown in the log. -/
  | plain (elements : List Blueprint)
  /-- The integers from `first` on without end, each on its own or as the only member of an object.
  -/
  | counting (first : Int) (key : Option String)
  /-- The pulls take these items one after the other. -/
  | items (items : List ItemPlan)

/-- What one pull from a stream does. -/
inductive ItemPlan where
  /-- Give an element, which is made with the stream. -/
  | element (b : Blueprint)
  /-- Fail for that reason. -/
  | failure (reason : String)
  /-- Pull from the stream that has this name at the time. -/
  | pull (name : String)

end

end TreeQuery
