import TreeQuery.Json.Number

/-!
# Reading JSON

Texts are read from the left, and the first fault decides: either the text ends too early, or
something in it cannot stand where it does. Containers may stand inside each other up to a limit.

## Main definitions

* `Json.parse` — the document of a text
-/

namespace TreeQuery

namespace Json

/-- A part of a text that was read, and the rest of the text. -/
abbrev Taken (α : Type) : Type := α × List Char

/-- How deep containers may stand inside each other. -/
def maxNesting : Nat := 127

/-- The text after its blanks. -/
def skipBlanks (cs : List Char) : List Char :=
  cs.dropWhile fun c => c = ' ' || c = '\n' || c = '\t' || c = '\r'

/-! ### Strings -/

/-- The value of a hexadecimal digit. -/
def hexValue? (c : Char) : Option Nat :=
  if c.isDigit then some (c.toNat - '0'.toNat)
  else if 'a' ≤ c ∧ c ≤ 'f' then some (c.toNat - 'a'.toNat + 10)
  else if 'A' ≤ c ∧ c ≤ 'F' then some (c.toNat - 'A'.toNat + 10)
  else none

/-- The value of four hexadecimal digits. -/
def hexValues? (a b c d : Char) : Option Nat := do
  return (((← hexValue? a) * 16 + (← hexValue? b)) * 16 + (← hexValue? c)) * 16 + (← hexValue? d)

/-- Four hexadecimal digits at the front of a text. Where fewer than four bytes are left, the text
ends too early. -/
def hexQuad (cs : List Char) : Except JsonFault (Taken Nat) :=
  match cs with
  | a :: b :: c :: d :: rest =>
    match hexValues? a b c d with
    | some n => .ok (n, rest)
    | none => .error .malformed
  | _ => .error (if (String.ofList cs).utf8ByteSize < 4 then .truncated else .malformed)

/-- The second half of a pair of code units, the first one being `high`. -/
def lowSurrogate (high : Nat) (cs : List Char) : Except JsonFault (Taken Char) :=
  match cs with
  | [] => .error .truncated
  | '\\' :: [] => .error .truncated
  | '\\' :: 'u' :: cs => do
    let (low, rest) ← hexQuad cs
    if 0xDC00 ≤ low ∧ low ≤ 0xDFFF then
      return (.ofNat ((high - 0xD800) * 0x400 + (low - 0xDC00) + 0x10000), rest)
    else throw .malformed
  | _ => .error .malformed

/-- The character that an escape stands for, its backslash taken. Characters beyond the first plane
are pairs of code units; half a pair is a fault. -/
def escape (cs : List Char) : Except JsonFault (Taken Char) :=
  match cs with
  | [] => .error .truncated
  | '"' :: rest => .ok ('"', rest)
  | '\\' :: rest => .ok ('\\', rest)
  | '/' :: rest => .ok ('/', rest)
  | 'b' :: rest => .ok ('\x08', rest)
  | 'f' :: rest => .ok ('\x0c', rest)
  | 'n' :: rest => .ok ('\n', rest)
  | 'r' :: rest => .ok ('\r', rest)
  | 't' :: rest => .ok ('\t', rest)
  | 'u' :: rest => do
    let (unit, rest) ← hexQuad rest
    if 0xD800 ≤ unit ∧ unit ≤ 0xDBFF then lowSurrogate unit rest
    else if 0xDC00 ≤ unit ∧ unit ≤ 0xDFFF then throw .malformed
    else return (.ofNat unit, rest)
  | _ => .error .malformed

/-- The rest of a string, its opening quote taken. Every step takes a character, so that an
allowance of one step for each character of the text is never used up. -/
def stringBody : (allowance : Nat) → List Char → Except JsonFault (Taken (List Char))
  | 0, _ => .error .truncated
  | _ + 1, [] => .error .truncated
  | n + 1, c :: rest =>
    if c = '"' then .ok ([], rest)
    else if c = '\\' then do
      let (c, rest) ← escape rest
      let (cs, rest) ← stringBody n rest
      return (c :: cs, rest)
    else if c.toNat < 0x20 then .error .malformed
    else do
      let (cs, rest) ← stringBody n rest
      return (c :: cs, rest)

/-- A string, its opening quote taken. -/
def readString (cs : List Char) : Except JsonFault (Taken String) := do
  let (body, rest) ← stringBody (cs.length + 1) cs
  return (.ofList body, rest)

/-! ### Documents -/

/-- The rest of a word whose first letter was taken. -/
def readWord (j : Json) : (letters : List Char) → List Char → Except JsonFault (Taken Json)
  | [], cs => .ok (j, cs)
  | _ :: _, [] => .error .truncated
  | letter :: letters, c :: cs => if c = letter then readWord j letters cs else .error .malformed

/-- The items of an array, at least one, up to the closing bracket. -/
def readItems (item : List Char → Except JsonFault (Taken Json)) :
    (allowance : Nat) → List Char → Except JsonFault (Taken (List Json))
  | 0, _ => .error .truncated
  | n + 1, cs => do
    let (j, cs) ← item cs
    match skipBlanks cs with
    | [] => throw .truncated
    | ']' :: rest => return ([j], rest)
    | ',' :: rest =>
      match skipBlanks rest with
      | [] => throw .truncated
      | ']' :: _ => throw .malformed
      | rest => do
        let (js, rest) ← readItems item n rest
        return (j :: js, rest)
    | _ => throw .malformed

/-- The members of an object, at least one, up to the closing brace. -/
def readMembers (item : List Char → Except JsonFault (Taken Json)) :
    (allowance : Nat) → List Char → Except JsonFault (Taken (List (String × Json)))
  | 0, _ => .error .truncated
  | n + 1, cs =>
    match skipBlanks cs with
    | [] => .error .truncated
    | '"' :: rest => do
      let (name, rest) ← readString rest
      match skipBlanks rest with
      | [] => throw .truncated
      | ':' :: rest => do
        let (j, rest) ← item rest
        match skipBlanks rest with
        | [] => throw .truncated
        | '}' :: rest => return ([(name, j)], rest)
        | ',' :: rest => do
          let (members, rest) ← readMembers item n rest
          return ((name, j) :: members, rest)
        | _ => throw .malformed
      | _ => throw .malformed
    | _ => .error .malformed

/-- The document at the front of a text, with `nesting` containers still to be opened inside each
other. -/
def readDocument : (nesting : Nat) → List Char → Except JsonFault (Taken Json)
  | nesting, cs =>
    match skipBlanks cs with
    | [] => .error .truncated
    | 'n' :: rest => readWord .null ['u', 'l', 'l'] rest
    | 't' :: rest => readWord (.boolean true) ['r', 'u', 'e'] rest
    | 'f' :: rest => readWord (.boolean false) ['a', 'l', 's', 'e'] rest
    | '"' :: rest => (readString rest).map fun (s, rest) => (.string s, rest)
    | '-' :: rest => (JsonNumber.read true rest).map fun (n, rest) => (.number n, rest)
    | '[' :: rest =>
      match nesting with
      | 0 => .error .malformed
      | inner + 1 =>
        match skipBlanks rest with
        | ']' :: rest => .ok (.array [], rest)
        | rest =>
          (readItems (readDocument inner) (rest.length + 1) rest).map fun (js, rest) =>
            (.array js, rest)
    | '{' :: rest =>
      match nesting with
      | 0 => .error .malformed
      | inner + 1 =>
        match skipBlanks rest with
        | '}' :: rest => .ok (.object [], rest)
        | rest =>
          (readMembers (readDocument inner) (rest.length + 1) rest).map fun (ms, rest) =>
            (.ofMembers ms, rest)
    | c :: rest =>
      if c.isDigit then
        (JsonNumber.read false (c :: rest)).map fun (n, rest) => (.number n, rest)
      else .error .malformed

/-- The document of a text; nothing but blanks may follow it. -/
def parse (text : String) : Except JsonFault Json := do
  let (j, rest) ← readDocument maxNesting text.toList
  if (skipBlanks rest).isEmpty then return j else throw .malformed

end Json

end TreeQuery
