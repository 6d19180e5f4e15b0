import TreeQuery.Filter.Printer
import TreeQuery.Proofs.Token.Spelling

/-!
# What a printed filter is made of

The text of a filter is a row of pieces: blanks, punctuation, names, quoted texts, positions and
literals. Each piece stands for lexemes of its own. So what is said about a text as a whole, its
lexemes above all, is said piece by piece.

## Main definitions

* `Piece`, `Piece.text`, `Piece.lexemes` — pieces
* `Filter.pieces` — the pieces of a tree

## Main statements

* `Filter.seen_print` — the text of a tree is the text of its pieces
-/

namespace TreeQuery

/-- A part of a printed text. -/
inductive Piece where
  | blank
  /-- A punctuation character. -/
  | mark (c : Char) (kind : TokenKind) (isMark : TokenKind.ofChar? c = some kind)
  /-- A text without quotes. -/
  | word (s : String)
  /-- A text between quotes. -/
  | quoted (s : String)
  /-- A position between brackets. -/
  | index (i : Nat)
  /-- A number that stands for itself. -/
  | literal (x : Float)

namespace Piece

/-- A name, quoted where it has to be. -/
def name (s : String) : Piece :=
  if readsBare s then word s else quoted s

abbrev dot : Piece := .mark '.' .dot (by decide)

abbrev colon : Piece := .mark ':' .colon (by decide)

abbrev leftBracket : Piece := .mark '[' .leftBracket (by decide)

abbrev rightBracket : Piece := .mark ']' .rightBracket (by decide)

abbrev leftBrace : Piece := .mark '{' .leftBrace (by decide)

abbrev rightBrace : Piece := .mark '}' .rightBrace (by decide)

/-- A comma and a blank. -/
def comma : List Piece := [mark ',' .comma (by decide), blank]

/-- A bar between blanks. -/
def bar : List Piece := [blank, mark '|' .pipe (by decide), blank]

/-- Several rows of pieces with others between them. -/
def joined (between : List Piece) : List (List Piece) → List Piece
  | [] => []
  | first :: rest => first ++ rest.flatMap (between ++ ·)

/-- What a piece looks like. -/
def text : Piece → String
  | blank => " "
  | mark c _ _ => String.singleton c
  | word s => s
  | quoted s => quote s
  | index i => toString i
  | literal x => printNumber x

/-- The lexemes of a literal. Infinity and NaN are words like any other. -/
def lexemesOfNumber (x : Float) : List Lexeme :=
  match Dyadic.ofFloat? x with
  | some d => (if d.negative then [⟨.minus, "-"⟩] else []) ++
      [⟨.number, Filter.layout.writeDecimal (.shortest Filter.layout.tie x.abs d)⟩]
  | none =>
    if x.isNaN then [⟨.text, "NaN"⟩] else if x < 0 then [⟨.minus, "-"⟩, ⟨.text, "inf"⟩]
    else [⟨.text, "inf"⟩]

/-- The lexemes of a piece. -/
def lexemes : Piece → List Lexeme
  | blank => []
  | mark c kind _ => [⟨kind, String.singleton c⟩]
  | word s => [⟨.text, s⟩]
  | quoted s => [⟨.quoted, s⟩]
  | index i => [⟨.number, toString i⟩]
  | literal x => lexemesOfNumber x

/-- The characters of several pieces. -/
def chars (ps : List Piece) : List Char := ps.flatMap (seen ·.text)

/-- The lexemes of several pieces. -/
def lexemesOf (ps : List Piece) : List Lexeme := ps.flatMap lexemes

variable {p : Piece} {ps ps' : List Piece}

@[simp]
theorem chars_nil : chars [] = [] := rfl

@[simp]
theorem chars_cons : chars (p :: ps) = seen p.text ++ chars ps := rfl

@[simp]
theorem chars_append : chars (ps ++ ps') = chars ps ++ chars ps' :=
  List.flatMap_append

@[simp]
theorem lexemesOf_nil : lexemesOf [] = [] := rfl

@[simp]
theorem lexemesOf_cons : lexemesOf (p :: ps) = p.lexemes ++ lexemesOf ps := rfl

@[simp]
theorem lexemesOf_append : lexemesOf (ps ++ ps') = lexemesOf ps ++ lexemesOf ps' :=
  List.flatMap_append

theorem joined_singleton (between ps : List Piece) : joined between [ps] = ps :=
  List.append_nil ps

theorem joined_cons_cons (between ps ps' : List Piece) (rest : List (List Piece)) :
    joined between (ps :: ps' :: rest) = ps ++ (between ++ joined between (ps' :: rest)) := by
  simp [joined]

end Piece

/-! ### The pieces of a tree -/

/-- The pieces of a step. -/
def Selector.pieces : Selector → List Piece
  | identity => [.dot]
  | key name => [.dot, .name name]
  | index i => [.leftBracket, .index i, .rightBracket]
  | slice s =>
    if s.all then
      [.leftBracket, .colon, .rightBracket]
    else
      [.leftBracket, .index s.start, .colon] ++
        (s.stop.map Piece.index).toList ++ [.rightBracket]

/-- The character of an operation between blanks. -/
def Operator.between : Operator → List Piece
  | multiply => [.blank, .mark '*' .star (by decide), .blank]
  | add => [.blank, .mark '+' .plus (by decide), .blank]

namespace Filter

mutual

/-- The pieces of a tree. -/
def pieces : Filter → List Piece
  | text s => [.quoted s]
  | number x => [.literal x]
  | length => [.word "length"]
  | select s => s.pieces
  | path steps => steps.flatMap Selector.pieces
  | binary op left right => pieces left ++ op.between ++ pieces right
  | group members => Piece.joined Piece.comma (piecesOfAll members)
  | mapping entries =>
    .leftBrace ::
      (Piece.joined Piece.comma (piecesOfEntries entries) ++ [.rightBrace])
  | pipe stages => Piece.joined Piece.bar (piecesOfAll stages)

/-- The pieces of several trees. -/
def piecesOfAll : List Filter → List (List Piece)
  | [] => []
  | f :: fs => pieces f :: piecesOfAll fs

/-- The pieces of several named trees. -/
def piecesOfEntries : List (String × Filter) → List (List Piece)
  | [] => []
  | (name, f) :: rest =>
    (.name name :: .colon :: .blank :: pieces f) :: piecesOfEntries rest

end

end Filter

/-! ### Their text -/

theorem seen_join (texts : List String) : seen (String.join texts) = texts.flatMap seen := by
  induction texts with
  | nil => rfl
  | cons text texts ih => rw [String.join_cons, seen_append, ih, List.flatMap_cons]

@[simp]
theorem Piece.text_name (s : String) : (name s).text = printName s := by
  unfold name printName
  split <;> rfl

theorem Selector.seen_print (s : Selector) : seen s.print = Piece.chars s.pieces := by
  cases s with
  | identity => rfl
  | key name =>
    simp only [print, pieces, seen_append, Piece.chars_cons, Piece.chars_nil, Piece.text_name,
      List.append_nil]
    rfl
  | index i =>
    simp only [print, pieces, seen_append, Piece.chars_cons, Piece.chars_nil, List.append_nil,
      List.append_assoc]
    rfl
  | slice s =>
    simp only [print, pieces, Slice.describe]
    by_cases all : s.all = true
    · rw [if_pos all, if_pos all]
      rfl
    · rw [if_neg all, if_neg all]
      cases s.stop with
      | none =>
        simp only [seen_append, Piece.chars_append, Piece.chars_cons, Piece.chars_nil,
          List.append_assoc]
        rfl
      | some stop =>
        simp only [seen_append, Piece.chars_append, Piece.chars_cons, Piece.chars_nil,
          Option.map_some, Option.getD_some, Option.toList_some, List.append_assoc, List.append_nil]
        rfl

theorem Operator.seen_symbol (op : Operator) :
    seen " " ++ (seen op.symbol ++ seen " ") = Piece.chars op.between := by
  cases op <;> decide

namespace Filter

mutual

/-- The text of a tree is the text of its pieces. -/
theorem seen_print : ∀ f : Filter, seen f.print = Piece.chars f.pieces
  | text s => by simp [print, pieces, Piece.text]
  | number x => by simp [print, pieces, Piece.text]
  | length => by simp [print, pieces, Piece.text]
  | select s => by rw [print, pieces, s.seen_print]
  | path steps => by
    rw [print, pieces, seen_join]
    induction steps with
    | nil => rfl
    | cons s steps ih =>
      rw [List.map_cons, List.flatMap_cons, List.flatMap_cons, Piece.chars_append, s.seen_print, ih]
  | binary op left right => by
    simp only [print, pieces, seen_append, Piece.chars_append, ← op.seen_symbol, seen_print left,
      seen_print right, List.append_assoc]
  | group members => by
    rw [print, pieces]
    exact seen_printAll ", " Piece.comma (by decide) members
  | mapping entries => by
    rw [print, pieces, seen_append, seen_append, seen_printEntries entries, Piece.chars_cons,
      Piece.chars_append]
    rfl
  | pipe stages => by
    rw [print, pieces]
    exact seen_printAll " | " Piece.bar (by decide) stages

/-- The texts of several trees are the texts of their pieces. -/
theorem seen_printAll (between : String) (ps : List Piece) (same : seen between = Piece.chars ps) :
    ∀ fs : List Filter,
      seen (between.intercalate (printAll fs)) = Piece.chars (Piece.joined ps (piecesOfAll fs))
  | [] => by rfl
  | [f] => by
    rw [printAll, printAll, String.intercalate_singleton, piecesOfAll, piecesOfAll,
      Piece.joined_singleton, seen_print f]
  | f :: g :: fs => by
    have rest := seen_printAll between ps same (g :: fs)
    rw [printAll, piecesOfAll] at rest ⊢
    rw [printAll, piecesOfAll, String.intercalate_cons_cons, Piece.joined_cons_cons, seen_append,
      seen_append, Piece.chars_append, Piece.chars_append, rest, same, seen_print f,
      List.append_assoc]

/-- The texts of several named trees are the texts of their pieces. -/
theorem seen_printEntries : ∀ es : List (String × Filter),
    seen (", ".intercalate (printEntries es)) =
      Piece.chars (Piece.joined Piece.comma (piecesOfEntries es))
  | [] => rfl
  | [(name, f)] => by
    rw [printEntries, printEntries, String.intercalate_singleton, piecesOfEntries, piecesOfEntries,
      Piece.joined_singleton, seen_entry name f]
  | (name, f) :: e :: es => by
    have rest := seen_printEntries (e :: es)
    obtain ⟨name', f'⟩ := e
    rw [printEntries, piecesOfEntries] at rest ⊢
    rw [printEntries, piecesOfEntries, String.intercalate_cons_cons, Piece.joined_cons_cons,
      seen_append, seen_append, Piece.chars_append, Piece.chars_append, rest, seen_entry name f,
      List.append_assoc]
    rfl

/-- The text of a named tree is the text of its pieces. -/
theorem seen_entry (name : String) (f : Filter) :
    seen (printName name ++ ": " ++ print f) =
      Piece.chars (.name name :: .colon :: .blank :: pieces f) := by
  simp only [seen_append, Piece.chars_cons, Piece.text_name, seen_print f, List.append_assoc]
  rfl

end

end Filter

end TreeQuery
