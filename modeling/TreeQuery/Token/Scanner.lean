import TreeQuery.Text.Blank
import TreeQuery.Token

/-!
# Scanning

A scanner holds what is left of a text and gives its tokens one at a time. Blanks separate tokens.
A double quote opens a text that goes on, verbatim, to the next one. Everything else is punctuation
or belongs to a run. The only fault there is, is a quote that is never closed.

## Main definitions

* `Scanner` — the characters still to come, and where the text ends
* `Scanner.next` — the next token, or the fault that takes its place
* `tokenize` — all tokens of a text, its end included
-/

namespace TreeQuery

/-- The place of a double quote that no other one closes. -/
structure UnclosedQuote where
  position : Position
  deriving DecidableEq, Repr

/-- How a message tells of an unclosed quote. -/
def UnclosedQuote.message (fault : UnclosedQuote) : String :=
  "unterminated string starting at " ++ fault.position.describe

/-- Whether a character belongs to a bare run. -/
def isRunChar (c : Char) : Bool :=
  !isBlank c && c ≠ '"' && (TokenKind.ofChar? c).isNone

/-- Whether a text is a number: digits, and perhaps a point with further digits. -/
def isNumeral (cs : List Char) : Bool :=
  let whole := cs.takeWhile Char.isDigit
  !whole.isEmpty &&
    match cs.dropWhile Char.isDigit with
    | [] => true
    | '.' :: fraction => !fraction.isEmpty && fraction.all Char.isDigit
    | _ => false

/-- The run at the front of the characters, and what follows it. A run of digits takes the point
after it along when a digit follows the point, and goes on from there. -/
def splitRun (spots : List Spot) : List Spot × List Spot :=
  let run := spots.takeWhile (isRunChar ·.char)
  match spots.dropWhile (isRunChar ·.char) with
  -- An empty run cannot occur here: a point alone is punctuation.
  | point :: digit :: rest =>
    if point.char = '.' ∧ digit.char.isDigit ∧ run.all (·.char.isDigit) then
      (run ++ point :: (digit :: rest).takeWhile (isRunChar ·.char),
        (digit :: rest).dropWhile (isRunChar ·.char))
    else (run, point :: digit :: rest)
  | rest => (run, rest)

/-- What is left of a text while its tokens are taken from it. -/
structure Scanner where
  /-- The characters still to come. -/
  rest : List Spot
  /-- The position of the end of the text. -/
  finish : Position
  deriving DecidableEq, Repr

namespace Scanner

/-- The scanner at the beginning of a text. -/
def ofText (text : String) : Scanner :=
  let (spots, finish) := locate text
  ⟨spots, finish⟩

/-- The text of some located characters. -/
def textOf (spots : List Spot) : String :=
  String.ofList (spots.map Spot.char)

/-- The token at the end of the text. -/
def finishToken (s : Scanner) : Token := ⟨.finish, "", s.finish⟩

/-- The next token, or the fault in its place, and the scanner after it. The end of the text is a
token that comes again and again; after an unclosed quote nothing else is left. -/
def next (s : Scanner) : Except UnclosedQuote Token × Scanner :=
  match s.rest.dropWhile (isBlank ·.char) with
  | [] => (.ok s.finishToken, { s with rest := [] })
  | spot :: rest =>
    if spot.char = '"' then
      let quoted := textOf (rest.takeWhile (·.char ≠ '"'))
      match rest.dropWhile (·.char ≠ '"') with
      | [] => (.error ⟨spot.position⟩, { s with rest := [] })
      | _ :: rest' => (.ok ⟨.quoted, quoted, spot.position⟩, { s with rest := rest' })
    else
      match TokenKind.ofChar? spot.char with
      | some kind => (.ok ⟨kind, String.singleton spot.char, spot.position⟩, { s with rest })
      | none =>
        let (run, rest') := splitRun (spot :: rest)
        let kind := if isNumeral (run.map Spot.char) then .number else .text
        (.ok ⟨kind, textOf run, spot.position⟩, { s with rest := rest' })

/-! ### Every token but the last takes characters -/

theorem length_dropWhile_le {α : Type} (p : α → Bool) (xs : List α) :
    (xs.dropWhile p).length ≤ xs.length :=
  (List.dropWhile_sublist p).length_le

/-- The part of a text after a run is no longer than what stands after the run's characters that
need no look at what follows. -/
theorem length_splitRun_le_dropWhile (spots : List Spot) :
    (splitRun spots).2.length ≤ (spots.dropWhile (isRunChar ·.char)).length := by
  simp only [splitRun]
  split
  · next point digit rest heq =>
    have shorter := length_dropWhile_le (fun spot : Spot => isRunChar spot.char) (digit :: rest)
    rw [heq]
    split
    · exact Nat.le_succ_of_le shorter
    · exact Nat.le_refl _
  · exact Nat.le_refl _

theorem length_splitRun_le (spots : List Spot) : (splitRun spots).2.length ≤ spots.length :=
  Nat.le_trans (length_splitRun_le_dropWhile spots) (length_dropWhile_le _ _)

theorem length_splitRun_lt {spot : Spot} (rest : List Spot) (h : isRunChar spot.char = true) :
    (splitRun (spot :: rest)).2.length < (spot :: rest).length := by
  have bound := length_splitRun_le_dropWhile (spot :: rest)
  have shorter := length_dropWhile_le (fun spot : Spot => isRunChar spot.char) rest
  simp only [List.dropWhile_cons, h, if_true] at bound
  simp only [List.length_cons]
  omega

/-- No token gives characters back. -/
theorem length_next_le (s : Scanner) : s.next.2.rest.length ≤ s.rest.length := by
  have blanks := length_dropWhile_le (fun spot : Spot => isBlank spot.char) s.rest
  unfold next
  split
  · simp
  · next spot rest heq =>
    rw [heq, List.length_cons] at blanks
    split
    · split
      · simp
      · next closing rest' heq' =>
        have inner := length_dropWhile_le (fun spot : Spot => spot.char ≠ '"') rest
        rw [heq', List.length_cons] at inner
        dsimp only
        omega
    · split
      · dsimp only
        omega
      · have run := length_splitRun_le (spot :: rest)
        rw [List.length_cons] at run
        dsimp only
        omega

/-- A token other than the end takes at least one character. -/
theorem length_next_lt {s : Scanner} {t : Token} (h : s.next.1 = .ok t) (hk : t.kind ≠ .finish) :
    s.next.2.rest.length < s.rest.length := by
  have blanks := length_dropWhile_le (fun spot : Spot => isBlank spot.char) s.rest
  revert h
  unfold next
  split
  · intro h
    simp only [Except.ok.injEq] at h
    subst h
    exact absurd rfl hk
  · next spot rest heq =>
    rw [heq, List.length_cons] at blanks
    -- The blanks are gone, so that something solid stands in front.
    have solid : isBlank spot.char = false := by
      have := List.head?_dropWhile_not (fun spot : Spot => isBlank spot.char) s.rest
      rw [heq] at this
      simpa using this
    split
    · split
      · simp
      · next closing rest' heq' =>
        have inner := length_dropWhile_le (fun spot : Spot => spot.char ≠ '"') rest
        rw [heq', List.length_cons] at inner
        intro _
        dsimp only
        omega
    · next notQuote =>
      split
      · intro _
        dsimp only
        omega
      · next notPunctuation =>
        intro _
        have belongs : isRunChar spot.char = true := by
          simp [isRunChar, solid, notQuote, notPunctuation]
        have run := length_splitRun_lt rest belongs
        rw [List.length_cons] at run
        dsimp only
        omega

/-- The tokens still to come, the end included, or the fault that stands among them. -/
def tokens (s : Scanner) : Except UnclosedQuote (List Token) :=
  match taken : s.next.1 with
  | .error fault => .error fault
  | .ok t =>
    if last : t.kind = .finish then .ok [t]
    else
      have := length_next_lt taken last
      s.next.2.tokens.map (t :: ·)
termination_by s.rest.length

end Scanner

/-- The tokens of a text, the end included. -/
def tokenize (text : String) : Except UnclosedQuote (List Token) :=
  (Scanner.ofText text).tokens

end TreeQuery
