import TreeQuery.Host

/-!
# Making values from blueprints

Parts are made in order, from the left; a link or stream is added to the host once its parts are
there.

## Main definitions

* `Blueprint.build` — the value of a blueprint, and the host with its links and streams
-/

namespace TreeQuery

/-- The element of a counting stream at a position. -/
def countingElement (first : Int) (key : Option String) (position : Nat) : Value :=
  let n : Value := .integer (Int64.ofInt (first + position))
  match key with
  | some name => .object [(name, n)]
  | none => n

mutual

/-- Make the value of a blueprint. A name that no value has stands for null. -/
def Blueprint.build : Blueprint → Host → Value × Host
  | .value v, h => (v, h)
  | .array items, h =>
    let (vs, h) := buildAll items h
    (.array vs, h)
  | .object members, h =>
    let (ms, h) := buildMembers members h
    (.ofMembers ms, h)
  | .record type values, h =>
    let (vs, h) := buildAll values h
    (.ofFields type vs, h)
  | .named name, h => ((h.names.lookup name).getD .null, h)
  | .link label plan, h => plan.build label h
  | .stream label plan, h => plan.build label h

/-- Make a link. -/
def LinkPlan.build : LinkPlan → String → Host → Value × Host
  | .target b, label, h =>
    let (v, h) := b.build h
    let (id, h) := h.addLink ⟨label, .give v, []⟩
    (.link id, h)
  | .steps first later, label, h =>
    let (id, h) := h.addLink ⟨label, first.toStep, stepsOf later⟩
    (.link id, h)

/-- What a resolution does whose step was planned. -/
def StepPlan.toStep : StepPlan → ResolverStep
  | .make b => .make b
  | .failure reason => .failure reason

/-- What resolutions do whose steps were planned. -/
def stepsOf : List StepPlan → List ResolverStep
  | [] => []
  | step :: steps => step.toStep :: stepsOf steps

/-- Make a stream. -/
def StreamPlan.build : StreamPlan → String → Host → Value × Host
  | .plain elements, label, h =>
    let (vs, h) := buildAll elements h
    let (id, h) := h.addStream (.source ⟨label, false, .listed (vs.map .element), 0⟩)
    (.stream id, h)
  | .counting first key, label, h =>
    let (id, h) := h.addStream (.source ⟨label, true, .endless (countingElement first key), 0⟩)
    (.stream id, h)
  | .items items, label, h =>
    let (items, h) := buildItems items h
    let (id, h) := h.addStream (.source ⟨label, true, .listed items, 0⟩)
    (.stream id, h)

/-- Make values in order. -/
def buildAll : List Blueprint → Host → List Value × Host
  | [], h => ([], h)
  | b :: bs, h =>
    let (v, h) := b.build h
    let (vs, h) := buildAll bs h
    (v :: vs, h)

/-- Make named values in order. -/
def buildMembers : List (String × Blueprint) → Host → List (String × Value) × Host
  | [], h => ([], h)
  | (name, b) :: bs, h =>
    let (v, h) := b.build h
    let (vs, h) := buildMembers bs h
    ((name, v) :: vs, h)

/-- Make items in order. -/
def buildItems : List ItemPlan → Host → List Item × Host
  | [], h => ([], h)
  | .element b :: plans, h =>
    let (v, h) := b.build h
    let (items, h) := buildItems plans h
    (.element v :: items, h)
  | .failure reason :: plans, h =>
    let (items, h) := buildItems plans h
    (.failure (.linkFailure reason) :: items, h)
  | .pull name :: plans, h =>
    let (items, h) := buildItems plans h
    (.pull name :: items, h)

end

end TreeQuery
