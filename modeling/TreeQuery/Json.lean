/-!
# JSON documents

The members of an object are kept in the order of their names, by code points, and a name occurs
once.

## Main definitions

* `JsonNumber`, `Json` — documents
* `Json.ofMembers` — an object in good order
-/

namespace TreeQuery

/-- A number: an integer of 64 bits, with or without a sign, or a finite double. -/
inductive JsonNumber where
  | natural (n : UInt64)
  /-- An integer below zero. -/
  | negative (n : Int64)
  | float (x : Float)

/-- A JSON document. -/
inductive Json where
  | null
  | boolean (b : Bool)
  | number (n : JsonNumber)
  | string (s : String)
  | array (items : List Json)
  | object (members : List (String × Json))

namespace Json

/-- Give a member to a name, in place of the one it has, and keep the names in order. -/
def putOrdered {α : Type} (name : String) (member : α) : List (String × α) → List (String × α)
  | [] => [(name, member)]
  | (name', member') :: rest =>
    if name = name' then (name, member) :: rest
    else if name < name' then (name, member) :: (name', member') :: rest
    else (name', member') :: putOrdered name member rest

/-- An object with the members that are left when they are given one after the other. -/
def ofMembers (members : List (String × Json)) : Json :=
  .object (members.foldl (fun ordered (name, member) => putOrdered name member ordered) [])

/-- A natural number. -/
def ofNat (n : Nat) : Json := .number (.natural (.ofNat n))

/-- An integer of 64 bits. -/
def ofInt64 (n : Int64) : Json :=
  if 0 ≤ n then .number (.natural n.toUInt64) else .number (.negative n)

/-- A double, null where it is no finite number. -/
def ofFloat (x : Float) : Json :=
  if x.isFinite then .number (.float x) else .null

end Json

end TreeQuery
