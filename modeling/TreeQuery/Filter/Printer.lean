import TreeQuery.Decimal.Layout
import TreeQuery.Filter
import TreeQuery.Token.Scanner

/-!
# Printing filters

The normal text of a filter tree. Names are quoted only where they would not read back as a name;
string literals always are. Numbers have no exponent. There are no parentheses, and none are needed
for trees that were read from a text.

## Main definitions

* `Filter.layout` — how literals are written
* `Filter.print` — the text of a tree
-/

namespace TreeQuery

/-- Whether a text reads back as itself without quotes. -/
def readsBare (s : String) : Bool :=
  match s.toList with
  | [] => false
  | c :: cs => s != "length" && !c.isDigit && (c :: cs).all isRunChar

/-- A text between quotes. -/
def quote (s : String) : String := "\"" ++ s ++ "\""

/-- A name, quoted where it has to be. -/
def printName (s : String) : String :=
  if readsBare s then s else quote s

/-- Literals never have an exponent, and integers no point. -/
def Filter.layout : Layout := ⟨.up, fun _ => true, ""⟩

/-- The text of a literal. Infinities and NaN have words that no literal reads back from. -/
def printNumber (x : Float) : String :=
  match Dyadic.ofFloat? x with
  | some d => Filter.layout.writeFinite x d
  | none => if x.isNaN then "NaN" else if x < 0 then "-inf" else "inf"

/-- The text of a step. -/
def Selector.print : Selector → String
  | identity => "."
  | key name => "." ++ printName name
  | index i => "[" ++ toString i ++ "]"
  | slice s => s.describe

namespace Filter

mutual

/-- The text of a tree. -/
def print : Filter → String
  | text s => quote s
  | number x => printNumber x
  | length => "length"
  | select s => s.print
  | path steps => String.join (steps.map Selector.print)
  | binary op left right => print left ++ " " ++ op.symbol ++ " " ++ print right
  | group members => ", ".intercalate (printAll members)
  | mapping entries => "\x7b" ++ ", ".intercalate (printEntries entries) ++ "\x7d"
  | pipe stages => " | ".intercalate (printAll stages)

/-- The texts of several trees. -/
def printAll : List Filter → List String
  | [] => []
  | f :: fs => print f :: printAll fs

/-- The texts of named trees. -/
def printEntries : List (String × Filter) → List String
  | [] => []
  | (name, f) :: rest => (printName name ++ ": " ++ print f) :: printEntries rest

end

end Filter

end TreeQuery
