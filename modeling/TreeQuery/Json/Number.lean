import TreeQuery.Json

/-!
# Reading JSON numbers

Integers of 64 bits are exact. Other numbers are doubles that come about in two roundings: the
digits that fit into 64 bits are taken as an integer, further ones are dropped, and the integer is
multiplied or divided by a power of ten.

## Main definitions

* `JsonFault` — why a text is no document
* `JsonNumber.read` — the number at the front of a text
-/

namespace TreeQuery

/-- Why a text is no document. -/
inductive JsonFault where
  /-- It ends too early. -/
  | truncated
  /-- Something in it cannot stand where it does. -/
  | malformed
  deriving DecidableEq, Repr

namespace JsonNumber

/-- Significands stay below this bound. -/
def significandBound : Nat := Nat.pow 2 64

/-- Exponents stay below this bound. -/
def exponentBound : Nat := Nat.pow 2 31

/-- The largest power of ten that is one factor. -/
def maxPower : Nat := 308

/-- Append digits to a significand as long as they fit; the digits that are dropped are left over.
-/
def appendDigits (significand : Nat) : List Char → Nat × List Char
  | [] => (significand, [])
  | c :: cs =>
    let longer := significand * 10 + (c.toNat - '0'.toNat)
    if longer < significandBound then appendDigits longer cs else (significand, c :: cs)

/-- The double next to a power of ten. -/
def powerOfTen (n : Nat) : Float := Float.ofScientific 1 false n

/-- Divide by powers of ten until the rest of the exponent is one factor, or nothing is left of the
number. -/
def shrink (x : Float) (places : Nat) : Float :=
  if places ≤ maxPower then x / powerOfTen places
  else if x == 0 then x
  else shrink (x / powerOfTen maxPower) (places - maxPower)
termination_by places
decreasing_by
  have : maxPower = 308 := rfl
  omega

/-- Multiply a significand with a power of ten. Numbers too large for a double are faults. -/
def scale (significand : Nat) (exponent : Int) : Except JsonFault Float :=
  let x := Float.ofNat significand
  if exponent < 0 then .ok (shrink x exponent.natAbs)
  else if exponent.natAbs ≤ maxPower then
    let y := x * powerOfTen exponent.natAbs
    if y.isInf then .error .malformed else .ok y
  else if x == 0 then .ok x
  else .error .malformed

/-- The number `± significand * 10 ^ exponent` as a double. -/
def float? (negative : Bool) (significand : Nat) (exponent : Int) : Except JsonFault JsonNumber :=
  (scale significand exponent).map fun x => .float (if negative then -x else x)

/-- An integer, a double if it does not fit. Zero has a sign only as a double. -/
def integer (negative : Bool) (significand : Nat) : JsonNumber :=
  if !negative then .natural (.ofNat significand)
  else if 0 < significand ∧ significand ≤ Nat.pow 2 63 then .negative (.ofInt (-significand))
  else .float (-Float.ofNat significand)

/-- The rest of a number after its `e`. -/
def readExponent (negative : Bool) (significand : Nat) (exponent : Int) (cs : List Char) :
    Except JsonFault (JsonNumber × List Char) := do
  let (below, cs) := match cs with
    | '+' :: cs => (false, cs)
    | '-' :: cs => (true, cs)
    | cs => (false, cs)
  let digits := cs.takeWhile Char.isDigit
  let rest := cs.dropWhile Char.isDigit
  if digits.isEmpty then throw (if rest.isEmpty then .truncated else .malformed)
  let power := Nat.ofDigitChars 10 digits 0
  if power < exponentBound then
    let x ← float? negative significand (if below then exponent - power else exponent + power)
    return (x, rest)
  else if significand ≠ 0 ∧ !below then throw .malformed
  else return (.float (if negative then -0.0 else 0.0), rest)

/-- The rest of a number after its digits: an exponent, or nothing. -/
def readScale (negative : Bool) (significand : Nat) (exponent : Int) (cs : List Char) :
    Except JsonFault (JsonNumber × List Char) :=
  match cs with
  | 'e' :: cs | 'E' :: cs => readExponent negative significand exponent cs
  | _ => do return (← float? negative significand exponent, cs)

/-- The rest of a number after its point. -/
def readFraction (negative : Bool) (significand : Nat) (exponent : Int) (cs : List Char) :
    Except JsonFault (JsonNumber × List Char) := do
  let digits := cs.takeWhile Char.isDigit
  let rest := cs.dropWhile Char.isDigit
  if digits.isEmpty then throw (if rest.isEmpty then .truncated else .malformed)
  -- Fraction digits that are dropped do not move the point.
  let (significand, dropped) := appendDigits significand digits
  readScale negative significand (exponent - (digits.length - dropped.length : Nat)) rest

/-- The number at the front of a text whose sign was taken, and the rest of the text. A zero at the
front stands alone. -/
def read (negative : Bool) (cs : List Char) : Except JsonFault (JsonNumber × List Char) := do
  let digits := cs.takeWhile Char.isDigit
  let rest := cs.dropWhile Char.isDigit
  if digits.isEmpty then throw (if rest.isEmpty then .truncated else .malformed)
  if digits.length > 1 ∧ digits.head? = some '0' then throw .malformed
  let (significand, dropped) := appendDigits 0 digits
  match rest with
  | '.' :: cs => readFraction negative significand dropped.length cs
  | _ =>
    if dropped.isEmpty ∧ ¬(rest.head? = some 'e' ∨ rest.head? = some 'E') then
      return (integer negative significand, rest)
    else readScale negative significand dropped.length rest

end JsonNumber

end TreeQuery
