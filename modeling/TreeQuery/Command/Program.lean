import TreeQuery.Command.Arguments
import TreeQuery.Command.Check
import TreeQuery.Json.Printer

/-!
# The program

What the program writes for a command line and a standard input, and the code with which it ends:
zero when all went well, one when a command failed, two when the command line is in disorder.

## Main definitions

* `StandardInput`, `Output` — what goes in and what comes out
* `Program.run` — the program
-/

namespace TreeQuery

/-- What stands at the standard input. -/
inductive StandardInput where
  /-- Nothing: it is a terminal. -/
  | terminal
  /-- A text. -/
  | text (s : String)
  /-- Bytes that are no text. -/
  | notText
  deriving DecidableEq, Repr

/-- What a program leaves behind. -/
structure Output where
  code : Nat
  stdout : String
  stderr : String
  deriving DecidableEq, Repr

namespace Output

/-- All went well. -/
def ok (stdout : String) : Output := ⟨0, stdout, ""⟩

/-- A command failed after it had written something. -/
def failure (stdout message : String) : Output := ⟨1, stdout, message ++ "\n"⟩

end Output

namespace Program

/-- The name and version of the program. -/
def version : String := "sieve 0.1.0\n"

/-- How the program is used. -/
def usage : String :=
  "Usage: sieve <COMMAND>\n\nCommands:\n" ++
    "  check <EXPRESSION> [-i <INPUT>] [-p] [--syntax-only] [--max-depth <N>]\n" ++
    "  tokens <EXPRESSION>\n" ++
    "  parse <EXPRESSION> [--max-depth <N>]\n"

/-- A token on a line of its own: where it stands, its kind and its text. -/
def tokenLine (t : Token) : String :=
  toString t.position.line ++ ":" ++ toString t.position.column ++ "\t" ++ t.kind.label ++ "\t" ++
    t.describe ++ "\n"

/-- The lines of the tokens that a scanner still has, up to the end of the text or a fault, which
comes with them. -/
def tokenLines (s : Scanner) : String × Option UnclosedQuote :=
  match taken : s.next.1 with
  | .error fault => ("", some fault)
  | .ok t =>
    if last : t.kind = .finish then (tokenLine t, none)
    else
      have := Scanner.length_next_lt taken last
      let (lines, fault) := tokenLines s.next.2
      (tokenLine t ++ lines, fault)
termination_by s.rest.length

/-- List the tokens of an expression. -/
def runTokens (expression : String) : Output :=
  match tokenLines (.ofText expression) with
  | (lines, none) => .ok lines
  | (lines, some fault) => .failure lines (QueryError.parse (.unclosedQuote fault)).message

/-- Print an expression in its normal form. -/
def runParse (expression : String) (maxDepth : Nat) : Output :=
  match Filter.parse maxDepth expression with
  | .ok f => .ok (f.print ++ "\n")
  | .error e => .failure "" (QueryError.parse e).message

/-- Check a query. -/
def runCheck (r : CheckRequest) (pretty : Bool) : Output :=
  match r.run with
  | .ok .valid => .ok "Syntax is valid\n"
  | .ok (.output j) => .ok ((if pretty then j.pretty else j.compact) ++ "\n")
  | .error e => .failure "" e.message

/-- Whether a command looks at the standard input: a check without a document of its own does. -/
def readsInput : Invocation → Bool
  | .check _ none _ syntaxOnly _ => !syntaxOnly
  | _ => false

/-- Do what a command line asks for. The standard input counts only where the command looks at it.
-/
def runInvocation (input : StandardInput) (invocation : Invocation) : Output :=
  match invocation with
  | .version => .ok version
  | .tokens expression => runTokens expression
  | .parse expression maxDepth => runParse expression maxDepth
  | .check expression given pretty syntaxOnly maxDepth =>
    let check (document : Option String) :=
      runCheck ⟨expression, document, syntaxOnly, maxDepth⟩ pretty
    match readsInput invocation, input with
    | false, _ => check given
    | true, .text s => check (some s)
    | true, .terminal => check none
    | true, .notText => .failure "" "IO error: stream did not contain valid UTF-8"

/-- Whether a command line makes the program look at its standard input. -/
def wantsInput (arguments : List String) : Bool :=
  match Invocation.ofArguments defaultMaxDepth arguments with
  | .ok invocation => readsInput invocation
  | .error _ => false

/-- Run the program. -/
def run (arguments : List String) (input : StandardInput) : Output :=
  match Invocation.ofArguments defaultMaxDepth arguments with
  | .ok invocation => runInvocation input invocation
  | .error .help => .ok usage
  | .error .usage => ⟨2, "", usage⟩

end Program

end TreeQuery
