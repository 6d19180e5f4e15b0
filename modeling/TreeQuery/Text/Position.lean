/-!
# Positions in a text

A position names a place both for people (line and column, from one) and for programs (the offset in
characters, from zero). Carriage returns take part in offsets only: no other part of the library
ever sees one.

## Main definitions

* `Position` — line, column and offset
* `Spot` — a character with its position
* `locate` — the characters of a text that are not carriage returns, each with its position, and the
  position of the end
-/

namespace TreeQuery

/-- A place in a text: line and column count from one, the offset in characters from zero. -/
structure Position where
  line : Nat
  column : Nat
  offset : Nat
  deriving DecidableEq, Repr

namespace Position

/-- The place where every text begins. -/
def start : Position := ⟨1, 1, 0⟩

/-- The wording of a position in messages. -/
def describe (p : Position) : String :=
  "line " ++ toString p.line ++ ", column " ++ toString p.column

/-- The place after the character `c` at `p`: a line feed begins a line, a carriage return moves the
offset alone. -/
def after (p : Position) (c : Char) : Position :=
  if c = '\r' then ⟨p.line, p.column, p.offset + 1⟩
  else if c = '\n' then ⟨p.line + 1, 1, p.offset + 1⟩
  else ⟨p.line, p.column + 1, p.offset + 1⟩

end Position

/-- A character of a text and the place where it stands. -/
structure Spot where
  char : Char
  position : Position
  deriving DecidableEq, Repr

/-- The characters from `p` on with their positions, carriage returns left out, and the position of
the end. -/
def locateFrom (p : Position) : List Char → List Spot × Position
  | [] => ([], p)
  | c :: rest =>
    let (spots, finish) := locateFrom (p.after c) rest
    (if c = '\r' then spots else ⟨c, p⟩ :: spots, finish)

/-- The characters of a text with their positions, carriage returns left out, and the position of
the end. -/
def locate (text : String) : List Spot × Position :=
  locateFrom .start text.toList

/-- Nothing but the carriage returns is lost. -/
theorem map_char_locateFrom (p : Position) (cs : List Char) :
    (locateFrom p cs).1.map Spot.char = cs.filter (· ≠ '\r') := by
  induction cs generalizing p with
  | nil => rfl
  | cons c rest ih =>
    by_cases h : c = '\r' <;> simp [locateFrom, h, ih]

/-- The end stands as many characters further on as the text is long. -/
theorem offset_locateFrom (p : Position) (cs : List Char) :
    (locateFrom p cs).2.offset = p.offset + cs.length := by
  induction cs generalizing p with
  | nil => simp [locateFrom]
  | cons c rest ih =>
    have h : (p.after c).offset = p.offset + 1 := by
      unfold Position.after; split
      · rfl
      · split <;> rfl
    simp only [locateFrom, ih, h, List.length_cons]
    omega

end TreeQuery
