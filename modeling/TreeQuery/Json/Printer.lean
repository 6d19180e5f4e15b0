import TreeQuery.Decimal.Layout
import TreeQuery.Json

/-!
# Printing JSON

Documents are printed on one line without blanks, or with a line for every item and member. Strings
escape quotes, backslashes and control characters and nothing else.

## Main definitions

* `JsonNumber.layout` — how doubles are written
* `Json.compact` — a document on one line
* `Json.pretty` — a document with a line for every item and member
-/

namespace TreeQuery

/-- Doubles keep a fraction of zero; powers of ten below `10 ^ -5` or from `10 ^ 16` on have an
exponent with its sign. -/
def JsonNumber.layout : Layout := ⟨.toEven, fun power => -5 ≤ power && power ≤ 15, ".0"⟩

/-- The text of a number. -/
def JsonNumber.print : JsonNumber → String
  | natural n => toString n.toNat
  | negative n => toString n.toInt
  | float x =>
    match Dyadic.ofFloat? x with
    | some d => layout.writeFinite x d
    | none => "null"

namespace Json

/-- A hexadecimal digit in lower case. -/
def hexDigit (n : Nat) : Char := Nat.digitChar (n % 16)

/-- A character within a string. -/
def escapeChar (c : Char) : List Char :=
  if c = '"' then ['\\', '"']
  else if c = '\\' then ['\\', '\\']
  else if c = '\n' then ['\\', 'n']
  else if c = '\r' then ['\\', 'r']
  else if c = '\t' then ['\\', 't']
  else if c = '\x08' then ['\\', 'b']
  else if c = '\x0c' then ['\\', 'f']
  else if c.toNat < 0x20 then ['\\', 'u', '0', '0', hexDigit (c.toNat / 16), hexDigit c.toNat]
  else [c]

/-- A string with its quotes. -/
def printString (s : String) : String :=
  "\"" ++ String.ofList (s.toList.flatMap escapeChar) ++ "\""

mutual

/-- A document on one line. -/
def compact : Json → String
  | null => "null"
  | boolean b => if b then "true" else "false"
  | number n => n.print
  | string s => printString s
  | array items => "[" ++ ",".intercalate (compactItems items) ++ "]"
  | object members => "\x7b" ++ ",".intercalate (compactMembers members) ++ "\x7d"

/-- Items, each on one line. -/
def compactItems : List Json → List String
  | [] => []
  | item :: items => item.compact :: compactItems items

/-- Members, each on one line. -/
def compactMembers : List (String × Json) → List String
  | [] => []
  | (name, member) :: members =>
    (printString name ++ ":" ++ member.compact) :: compactMembers members

end

/-- The beginning of a line, two blanks for each container around it. -/
def newline (depth : Nat) : String :=
  "\n" ++ String.ofList (List.replicate (2 * depth) ' ')

/-- Lines between brackets; without lines the brackets stand together. -/
def block (opening closing : String) (depth : Nat) (lines : List String) : String :=
  if lines.isEmpty then opening ++ closing
  else
    opening ++ newline (depth + 1) ++ ("," ++ newline (depth + 1)).intercalate lines ++
      newline depth ++ closing

mutual

/-- A document inside `depth` containers, with a line for every item and member. -/
def prettyAt (depth : Nat) : Json → String
  | null => "null"
  | boolean b => if b then "true" else "false"
  | number n => n.print
  | string s => printString s
  | array items => block "[" "]" depth (prettyItems (depth + 1) items)
  | object members => block "\x7b" "\x7d" depth (prettyMembers (depth + 1) members)

/-- Items inside `depth` containers. -/
def prettyItems (depth : Nat) : List Json → List String
  | [] => []
  | item :: items => item.prettyAt depth :: prettyItems depth items

/-- Members inside `depth` containers. -/
def prettyMembers (depth : Nat) : List (String × Json) → List String
  | [] => []
  | (name, member) :: members =>
    (printString name ++ ": " ++ member.prettyAt depth) :: prettyMembers depth members

end

/-- A document with a line for every item and member. -/
def pretty (j : Json) : String := j.prettyAt 0

end Json

end TreeQuery
