import TreeQuery.Members
import TreeQuery.Record

/-!
# Values

The data that filters work on. Besides the shapes of JSON there are byte strings, records with
declared fields, links that stand for a value not at hand yet, and streams that give their elements
once. Links and streams are identities: what they stand for is held by a `Host`.

## Main definitions

* `LinkId`, `StreamId`, `Value` — values
* `Value.ofMembers`, `Value.ofFields` — objects and records in good order
* `Value.member?` — lookup by name
* `Value.size?` — the size that the filter `length` gives
* `Kind`, `Value.kind` — the shapes of values
-/

namespace TreeQuery

/-- The identity of a link. -/
structure LinkId where
  index : Nat
  deriving DecidableEq, Repr

/-- The identity of a stream. -/
structure StreamId where
  index : Nat
  deriving DecidableEq, Repr

/-- The data that filters work on. -/
inductive Value where
  | null
  | boolean (b : Bool)
  | integer (n : Int64)
  | float (x : Float)
  | string (s : String)
  | bytes (bs : List UInt8)
  | array (items : List Value)
  /-- Named members in the order in which they are gone through. -/
  | object (members : List (String × Value))
  /-- A value for each field of the type, in the order of declaration. -/
  | record (type : RecordType) (values : List Value)
  /-- A value that is not at hand yet. -/
  | link (id : LinkId)
  /-- Elements that are given once. -/
  | stream (id : StreamId)

/-- The shapes of values. -/
inductive Kind where
  | null
  | boolean
  | integer
  | float
  | string
  | bytes
  | array
  | object
  | record
  | link
  | stream
  deriving DecidableEq, Repr

/-- The name of a shape in messages. -/
def Kind.name : Kind → String
  | null => "null"
  | boolean => "boolean"
  | integer => "integer"
  | float => "float"
  | string => "string"
  | bytes => "bytes"
  | array => "array"
  | object => "object"
  | record => "record"
  | link => "link"
  | stream => "stream"

namespace Value

/-- The shape of a value. -/
def kind : Value → Kind
  | null => .null
  | boolean _ => .boolean
  | integer _ => .integer
  | float _ => .float
  | string _ => .string
  | bytes _ => .bytes
  | array _ => .array
  | object _ => .object
  | record .. => .record
  | link _ => .link
  | stream _ => .stream

/-- The number that an integer or a float is. -/
def number? : Value → Option Float
  | integer n => some (Float.ofInt n.toInt)
  | float x => some x
  | _ => none

/-- An object with the members that are left when they are given one after the other. -/
def ofMembers (members : List (String × Value)) : Value :=
  .object (collectMembers members)

/-- A record: fields that are given no value are null, and values beyond the fields are dropped. -/
def ofFields (type : RecordType) (values : List Value) : Value :=
  let count := type.fields.length
  .record type (values.take count ++ List.replicate (count - values.length) .null)

/-- The member of an object, or the field of a record, that a name finds. -/
def member? : Value → String → Option Value
  | object members, name => members.lookup name
  | record type values, name => (type.fieldIndex? name).bind fun i => values[i]?
  | _, _ => none

/-- A count as a value; counts beyond the largest integer stop there. -/
def ofCount (n : Nat) : Value :=
  .integer (if n < Nat.pow 2 63 then Int64.ofNat n else Int64.maxValue)

/-- How many characters, bytes, elements, members or fields a value has. -/
def size? : Value → Option Nat
  | string s => some s.length
  | bytes bs => some bs.length
  | array items => some items.length
  | object members => some members.length
  | record _ values => some values.length
  | _ => none

mutual

/-- Equality of values: the same shape with equal parts. Floats compare as numbers, so NaN equals
nothing; the order of an object's members does not count; records need equal types; links and
streams are equal to themselves alone. -/
def same : Value → Value → Bool
  | null, null => true
  | boolean a, boolean b => a == b
  | integer a, integer b => a == b
  | float a, float b => a == b
  | string a, string b => a == b
  | bytes a, bytes b => a == b
  | array as, array bs => sameItems as bs
  | object as, object bs => as.length == bs.length && sameMembers as bs
  | record s as, record t bs => s == t && sameItems as bs
  | link a, link b => a == b
  | stream a, stream b => a == b
  | _, _ => false

/-- Equality of values position by position. -/
def sameItems : List Value → List Value → Bool
  | [], [] => true
  | a :: as, b :: bs => same a b && sameItems as bs
  | _, _ => false

/-- Whether each named value has an equal one of that name among others. -/
def sameMembers : List (String × Value) → List (String × Value) → Bool
  | [], _ => true
  | (name, a) :: as, bs =>
    (match bs.lookup name with
      | some b => same a b
      | none => false) && sameMembers as bs

end

end Value

end TreeQuery
