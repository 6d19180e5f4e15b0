import TreeQuery.Text.Position

/-!
# Tokens

The pieces that a query text falls into: punctuation of one character each, bare runs of text,
numbers, quoted texts, and the end of the input.

## Main definitions

* `TokenKind`, `Token` — tokens, with the place where they start
* `TokenKind.ofChar?` — the punctuation characters
* `TokenKind.isName` — the tokens that may name a member
* `Token.describe` — how a message names a token
-/

namespace TreeQuery

/-- What sort of piece a token is. -/
inductive TokenKind where
  /-- The end of the input. -/
  | finish
  /-- A bare run that is no number. -/
  | text
  /-- Text between double quotes. -/
  | quoted
  /-- Digits, with at most one point between digits. -/
  | number
  | dot
  | comma
  | colon
  | pipe
  | leftBracket
  | rightBracket
  | leftBrace
  | rightBrace
  | plus
  | minus
  | star
  | slash
  deriving DecidableEq, Repr

namespace TokenKind

/-- The kind of token that a punctuation character is on its own. -/
def ofChar? : Char → Option TokenKind
  | '.' => some dot
  | ',' => some comma
  | ':' => some colon
  | '|' => some pipe
  | '[' => some leftBracket
  | ']' => some rightBracket
  | '{' => some leftBrace
  | '}' => some rightBrace
  | '+' => some plus
  | '-' => some minus
  | '*' => some star
  | '/' => some slash
  | _ => none

/-- Whether a token of this kind may be the name of a member: a text or a number. -/
def isName : TokenKind → Bool
  | text => true
  | quoted => true
  | number => true
  | _ => false

/-- The name under which a kind of token is listed. -/
def label : TokenKind → String
  | finish => "Eof"
  | text => "Text"
  | quoted => "Quoted"
  | number => "Number"
  | dot => "Dot"
  | comma => "Comma"
  | colon => "Colon"
  | pipe => "Pipe"
  | leftBracket => "LBracket"
  | rightBracket => "RBracket"
  | leftBrace => "LBrace"
  | rightBrace => "RBrace"
  | plus => "Plus"
  | minus => "Minus"
  | star => "Star"
  | slash => "Slash"

end TokenKind

/-- A token, the text it stands for and the place of its first character. A quoted token stands for
the text between its quotes, the end of the input for the empty text. -/
structure Token where
  kind : TokenKind
  text : String
  position : Position
  deriving DecidableEq, Repr

/-- How a message names a token. -/
def Token.describe (t : Token) : String :=
  match t.kind with
  | .finish => "end of input"
  | .quoted => "\"" ++ t.text ++ "\""
  | _ => "'" ++ t.text ++ "'"

end TreeQuery
