import TreeQuery.Json.Reader
import TreeQuery.Query.Document

/-!
# Checking a query against a document

A check reads a document, applies a query to it and gives the result as a document, or only looks
whether the query can be read at all. A document that cannot be read is reported before a query that
cannot.

## Main definitions

* `CheckRequest`, `CheckError`, `CheckResult` — what is asked, what may go wrong, what comes out
* `CheckRequest.run` — the check
-/

namespace TreeQuery

/-- What is to be checked. -/
structure CheckRequest where
  /-- The query. -/
  expression : String
  /-- The text of a document. -/
  input : Option String
  /-- Whether to read the query only. -/
  syntaxOnly : Bool
  /-- How deep mappings may stand inside each other. -/
  maxDepth : Nat

/-- Why a check fails. -/
inductive CheckError where
  /-- There is no document. -/
  | noInput
  /-- The text is no document. -/
  | json (fault : JsonFault)
  /-- The query cannot be read, or its evaluation fails. -/
  | query (e : QueryError)

/-- What a check gives. -/
inductive CheckResult where
  /-- The query can be read. -/
  | valid
  /-- The result of the query. -/
  | output (j : Json)

/-- The wording of a fault in a document. -/
def JsonFault.message : JsonFault → String
  | truncated => "the text ends too early"
  | malformed => "the text is malformed"

/-- The wording of a failure. -/
def CheckError.message : CheckError → String
  | noInput => "No input provided. Use --input or pipe JSON to stdin."
  | json fault => "Invalid JSON: " ++ fault.message
  | query e => e.message

/-- Check a query. -/
def CheckRequest.run (r : CheckRequest) : Except CheckError CheckResult :=
  if r.syntaxOnly then
    match Filter.parse r.maxDepth r.expression with
    | .ok _ => .ok .valid
    | .error e => .error (.query (.parse e))
  else
    match r.input with
    | none => .error .noInput
    | some text =>
      match Json.parse text with
      | .error fault => .error (.json fault)
      | .ok input =>
        match Query.applyToJson r.maxDepth r.expression input with
        | .ok j => .ok (.output j)
        | .error e => .error (.query e)

end TreeQuery
