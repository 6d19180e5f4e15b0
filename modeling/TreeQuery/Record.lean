/-!
# Record types

A record type declares named fields. A field may go under a second name in output, and a lookup by
either name finds it. Where names clash, the output names win over the declared ones, and among
either the later field wins over the earlier.

## Main definitions

* `Field`, `RecordType` — declarations
* `RecordType.fieldIndex?` — the field that a name finds
-/

namespace TreeQuery

/-- A field: its declared name, and the name that it goes under in output if that is another. -/
structure Field where
  name : String
  outputAs : Option String
  deriving DecidableEq, Repr

/-- The name of a field in output. -/
def Field.outputName (f : Field) : String := f.outputAs.getD f.name

/-- The fields that all records of a type have. -/
structure RecordType where
  name : String
  fields : List Field
  deriving DecidableEq, Repr

namespace RecordType

/-- Which field each name finds, the latest entry first: the declared names are entered one after
the other, then the output names. -/
def table (t : RecordType) : List (String × Nat) :=
  let declared := t.fields.zipIdx.foldl (fun entries (f, i) => (f.name, i) :: entries) []
  t.fields.zipIdx.foldl
    (fun entries (f, i) =>
      match f.outputAs with
      | some name => (name, i) :: entries
      | none => entries)
    declared

/-- The position of the field that a name finds. -/
def fieldIndex? (t : RecordType) (name : String) : Option Nat :=
  t.table.lookup name

end RecordType

end TreeQuery
