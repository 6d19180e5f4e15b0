/-!
# Command lines

A command line names a command and gives it an expression and options. Options may stand anywhere; a
long one may have its value attached by an equals sign, short ones may be joined, the last of them
with its value attached. Two dashes end the options. What begins with a dash is never a value or an
expression otherwise, but for the dash alone.

## Main definitions

* `Invocation` — what a command line asks for
* `Refusal` — why it asks for nothing
* `Invocation.ofArguments` — the reading of a command line
-/

namespace TreeQuery

/-- What a command line asks for. -/
inductive Invocation where
  /-- The version of the program. -/
  | version
  /-- Apply an expression to a document. -/
  | check (expression : String) (input : Option String) (pretty syntaxOnly : Bool) (maxDepth : Nat)
  /-- List the tokens of an expression. -/
  | tokens (expression : String)
  /-- Print an expression in its normal form. -/
  | parse (expression : String) (maxDepth : Nat)
  deriving DecidableEq, Repr

/-- Why a command line asks for nothing that the program does. -/
inductive Refusal where
  /-- It is in disorder. -/
  | usage
  /-- It asks for help. -/
  | help
  deriving DecidableEq, Repr

/-- The options of the commands. -/
inductive CommandOption where
  | input
  | pretty
  | syntaxOnly
  | maxDepth
  deriving DecidableEq, Repr

namespace CommandOption

/-- The long name of an option. -/
def long : CommandOption → String
  | input => "input"
  | pretty => "pretty"
  | syntaxOnly => "syntax-only"
  | maxDepth => "max-depth"

/-- The short name of an option, if it has one. -/
def short? : CommandOption → Option Char
  | input => some 'i'
  | pretty => some 'p'
  | _ => none

/-- Whether an option has a value. -/
def hasValue : CommandOption → Bool
  | input => true
  | maxDepth => true
  | _ => false

end CommandOption

/-- A number on a command line: digits, perhaps after a plus sign, and not too many. -/
def sizeOf? (s : String) : Option Nat :=
  let digits := match s.toList with
    | '+' :: cs => cs
    | cs => cs
  let n := Nat.ofDigitChars 10 digits 0
  if !digits.isEmpty && digits.all Char.isDigit && n < Nat.pow 2 64 then some n else none

/-- Whether an argument may stand for a value or an expression. -/
def isOperand (s : String) : Bool :=
  match s.toList with
  | '-' :: _ :: _ => false
  | _ => true

/-- What was found on a command line so far. -/
structure Findings where
  expression : Option String
  options : List (CommandOption × String)

namespace Findings

/-- Take an expression. There is one only. -/
def takeExpression (s : String) (found : Findings) : Except Refusal Findings :=
  match found.expression with
  | none => .ok { found with expression := some s }
  | some _ => .error .usage

/-- Take an option with its value. An option occurs once, and the value has to suit it. -/
def takeOption (option : CommandOption) (value : String) (found : Findings) :
    Except Refusal Findings :=
  if (found.options.lookup option).isSome then .error .usage
  else if option = .maxDepth ∧ (sizeOf? value).isNone then .error .usage
  else .ok { found with options := (option, value) :: found.options }

/-- Take short options that are joined. The last one may lack its value: then it is given back. -/
def takeShort (allowed : List CommandOption) :
    List Char → Findings → Except Refusal (Option CommandOption × Findings)
  | [], found => .ok (none, found)
  | c :: cs, found =>
    match allowed.find? (fun option => option.short? = some c) with
    | some option =>
      if option.hasValue then
        match cs with
        | [] => .ok (some option, found)
        | '=' :: value => do return (none, ← found.takeOption option (.ofList value))
        | value => do return (none, ← found.takeOption option (.ofList value))
      else do takeShort allowed cs (← found.takeOption option "")
    | none => .error (if c = 'h' then .help else .usage)

/-- Take a long option. It may lack its value: then it is given back. -/
def takeLong (allowed : List CommandOption) (cs : List Char) (found : Findings) :
    Except Refusal (Option CommandOption × Findings) :=
  let name := String.ofList (cs.takeWhile (· ≠ '='))
  let attached : Option String :=
    match cs.dropWhile (· ≠ '=') with
    | [] => none
    | _ :: value => some (.ofList value)
  match allowed.find? (fun option => option.long = name), attached with
  | some option, none =>
    if option.hasValue then .ok (some option, found)
    else do return (none, ← found.takeOption option "")
  | some option, some value =>
    if option.hasValue then do return (none, ← found.takeOption option value) else .error .usage
  | none, none => .error (if name = "help" then .help else .usage)
  | none, some _ => .error .usage

/-- Take expressions only. -/
def takeExpressions : List String → Findings → Except Refusal Findings
  | [], found => .ok found
  | s :: rest, found => do takeExpressions rest (← found.takeExpression s)

/-- Take all arguments. An option that lacks its value takes the next argument. -/
def takeAll (allowed : List CommandOption) :
    (pending : Option CommandOption) → List String → Findings → Except Refusal Findings
  | none, [], found => .ok found
  | some _, [], _ => .error .usage
  | some option, s :: rest, found =>
    if isOperand s then do takeAll allowed none rest (← found.takeOption option s)
    else .error .usage
  | none, s :: rest, found =>
    match s.toList with
    | ['-', '-'] => found.takeExpressions rest
    | '-' :: '-' :: cs => do
      let (pending, found) ← found.takeLong allowed cs
      takeAll allowed pending rest found
    | '-' :: c :: cs => do
      let (pending, found) ← found.takeShort allowed (c :: cs)
      takeAll allowed pending rest found
    | _ => do takeAll allowed none rest (← found.takeExpression s)

/-- The expression that was found. -/
def theExpression (found : Findings) : Except Refusal String :=
  match found.expression with
  | some s => .ok s
  | none => .error .usage

/-- Whether an option was found. -/
def has (option : CommandOption) (found : Findings) : Bool :=
  (found.options.lookup option).isSome

/-- How deep mappings may stand inside each other. -/
def maxDepth (default : Nat) (found : Findings) : Nat :=
  ((found.options.lookup .maxDepth).bind sizeOf?).getD default

end Findings

namespace Invocation

/-- Whether help can be given: on the program, or on one of its commands. -/
def asksForHelp : List String → Bool
  | [] => true
  | [name] => ["check", "tokens", "parse", "help"].contains name
  | _ => false

/-- What the arguments of a command ask for. -/
def ofCommand (defaultMaxDepth : Nat) (name : String) (arguments : List String) :
    Except Refusal Invocation :=
  let take (allowed : List CommandOption) := Findings.takeAll allowed none arguments ⟨none, []⟩
  match name with
  | "check" => do
    let found ← take [.input, .pretty, .syntaxOnly, .maxDepth]
    return .check (← found.theExpression) (found.options.lookup .input) (found.has .pretty)
      (found.has .syntaxOnly) (found.maxDepth defaultMaxDepth)
  | "tokens" => do return .tokens (← (← take []).theExpression)
  | "parse" => do
    let found ← take [.maxDepth]
    return .parse (← found.theExpression) (found.maxDepth defaultMaxDepth)
  | "help" => .error (if asksForHelp arguments then .help else .usage)
  | _ => .error .usage

/-- What a command line asks for. -/
def ofArguments (defaultMaxDepth : Nat) : List String → Except Refusal Invocation
  | [] => .error .usage
  | s :: rest =>
    match s.toList with
    | '-' :: 'V' :: _ => .ok .version
    | '-' :: 'h' :: _ => .error .help
    | '-' :: '-' :: cs =>
      if cs = "version".toList then .ok .version
      else if cs = "help".toList then .error .help
      else .error .usage
    | _ => ofCommand defaultMaxDepth s rest

end Invocation

end TreeQuery
