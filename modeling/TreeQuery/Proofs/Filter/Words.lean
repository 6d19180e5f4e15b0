import TreeQuery.Proofs.Decimal.Binary64
import TreeQuery.Proofs.Filter.Pieces

/-!
# Literals, names and texts of a tree

What there is in a tree can be told from its pieces: its literals are there, and its names and
texts. Trees that are the same have as many names and texts, and so have their texts, except that
infinity has a word there.

## Main definitions

* `Filter.literals` — the numbers in a tree that stand for themselves
* `Piece.words` — how many names and texts there are among pieces

## Main statements

* `Filter.same_self` — a tree without NaN is the same as itself
* `Filter.words_eq_of_same` — trees that are the same have as many names and texts
* `Piece.countP_lexemesOf` — names and texts among the lexemes come from names, texts and infinities
-/

namespace TreeQuery

/-! ### Literals -/

namespace Filter

mutual

/-- The numbers in a tree that stand for themselves. -/
def literals : Filter → List Float
  | number x => [x]
  | binary _ left right => literals left ++ literals right
  | group members => literalsOfAll members
  | mapping entries => literalsOfEntries entries
  | pipe stages => literalsOfAll stages
  | text _ | length | select _ | path _ => []

/-- The numbers in several trees that stand for themselves. -/
def literalsOfAll : List Filter → List Float
  | [] => []
  | f :: fs => literals f ++ literalsOfAll fs

/-- The numbers in several named trees that stand for themselves. -/
def literalsOfEntries : List (String × Filter) → List Float
  | [] => []
  | (_, f) :: rest => literals f ++ literalsOfEntries rest

end

end Filter

namespace Piece

/-- Whether this is a name or a text. -/
def isWord : Piece → Bool
  | word _ => true
  | quoted _ => true
  | _ => false

/-- The number that this is, if it stands for itself. -/
def literal? : Piece → Option Float
  | literal x => some x
  | _ => none

theorem literalsOf_joined {between : List Piece} (none : between.filterMap literal? = [])
    (pss : List (List Piece)) :
    (joined between pss).filterMap literal? = pss.flatMap (·.filterMap literal?) := by
  cases pss with
  | nil => rfl
  | cons first rest => simp [joined, List.filterMap_append, List.filterMap_flatMap, none]

theorem literals_name (s : String) : (name s).literal? = none := by
  unfold name
  split <;> rfl

end Piece

theorem Selector.literals_pieces (s : Selector) : s.pieces.filterMap Piece.literal? = [] := by
  cases s with
  | identity => rfl
  | key name =>
    rw [pieces, List.filterMap_cons_none rfl, List.filterMap_cons_none (Piece.literals_name name)]
    rfl
  | index i => rfl
  | slice s =>
    simp only [pieces]
    split
    · rfl
    · cases s.stop <;> rfl

namespace Filter

mutual

/-- The literals of a tree are those among its pieces. -/
theorem literals_pieces : ∀ f : Filter, f.pieces.filterMap Piece.literal? = f.literals
  | text s => rfl
  | number x => rfl
  | length => rfl
  | select s => by rw [pieces, literals, s.literals_pieces]
  | path steps => by
    simp [pieces, literals, List.filterMap_flatMap, Selector.literals_pieces]
  | binary op left right => by
    have none : op.between.filterMap Piece.literal? = [] := by cases op <;> rfl
    simp only [pieces, literals, List.filterMap_append, none, literals_pieces left,
      literals_pieces right, List.append_nil]
  | group members => by
    rw [pieces, literals, Piece.literalsOf_joined rfl, literals_piecesOfAll members]
  | mapping entries => by
    have none : Piece.comma.filterMap Piece.literal? = [] := rfl
    rw [pieces, literals, ← literals_piecesOfEntries entries, ← Piece.literalsOf_joined none,
      List.filterMap_cons_none rfl, List.filterMap_append]
    exact List.append_nil _
  | pipe stages => by
    rw [pieces, literals, Piece.literalsOf_joined rfl, literals_piecesOfAll stages]

theorem literals_piecesOfAll : ∀ fs : List Filter,
    (piecesOfAll fs).flatMap (·.filterMap Piece.literal?) = literalsOfAll fs
  | [] => rfl
  | f :: fs => by
    rw [piecesOfAll, literalsOfAll, List.flatMap_cons, literals_pieces f, literals_piecesOfAll fs]

theorem literals_piecesOfEntries : ∀ es : List (String × Filter),
    (piecesOfEntries es).flatMap (·.filterMap Piece.literal?) = literalsOfEntries es
  | [] => rfl
  | (name, f) :: es => by
    rw [piecesOfEntries, literalsOfEntries, List.flatMap_cons, literals_piecesOfEntries es,
      ← literals_pieces f, List.filterMap_cons_none (Piece.literals_name name)]
    rfl

end

theorem mem_literals_iff {f : Filter} {x : Float} : x ∈ f.literals ↔ .literal x ∈ f.pieces := by
  rw [← literals_pieces, List.mem_filterMap]
  constructor
  · rintro ⟨p, mem, same⟩
    cases p with
    | literal y =>
      cases same
      exact mem
    | _ => cases same
  · intro mem
    exact ⟨_, mem, rfl⟩

mutual

/-- A tree without NaN is the same as itself. -/
theorem same_self : ∀ f : Filter, (∀ x ∈ f.literals, x.isNaN = false) → f.same f
  | text s => fun _ => by simp [same]
  | number x => fun numbers => by
    have number := numbers x (List.mem_singleton.mpr rfl)
    rw [same, Float.beq_self_iff]
    simpa using number
  | length => fun _ => rfl
  | select s => fun _ => by simp [same]
  | path steps => fun _ => by simp [same]
  | binary op left right => fun numbers => by
    rw [literals, List.forall_mem_append] at numbers
    simp [same, same_self left numbers.1, same_self right numbers.2]
  | group members => sameAll_self members
  | mapping entries => sameEntries_self entries
  | pipe stages => sameAll_self stages

theorem sameAll_self : ∀ fs : List Filter,
    (∀ x ∈ literalsOfAll fs, x.isNaN = false) → sameAll fs fs
  | [] => fun _ => rfl
  | f :: fs => fun numbers => by
    rw [literalsOfAll, List.forall_mem_append] at numbers
    simp [sameAll, same_self f numbers.1, sameAll_self fs numbers.2]

theorem sameEntries_self : ∀ es : List (String × Filter),
    (∀ x ∈ literalsOfEntries es, x.isNaN = false) → sameEntries es es
  | [] => fun _ => rfl
  | (name, f) :: es => fun numbers => by
    rw [literalsOfEntries, List.forall_mem_append] at numbers
    simp [sameEntries, same_self f numbers.1, sameEntries_self es numbers.2]

end

end Filter

/-! ### Names and texts -/

/-- Names and texts are what is no number and no punctuation. -/
def Lexeme.isWord (l : Lexeme) : Bool :=
  match l.kind with
  | .text => true
  | .quoted => true
  | _ => false

namespace Piece

/-- How many names and texts there are. -/
def words (ps : List Piece) : Nat := ps.countP isWord

variable {p : Piece} {ps ps' : List Piece}

theorem words_append : words (ps ++ ps') = words ps + words ps' :=
  List.countP_append

theorem words_cons : words (p :: ps) = words ps + if p.isWord then 1 else 0 :=
  List.countP_cons

theorem words_joined {between : List Piece} (none : words between = 0) (pss : List (List Piece)) :
    words (joined between pss) = (pss.map words).sum := by
  cases pss with
  | nil => rfl
  | cons first rest =>
    rw [joined, words_append, List.map_cons, List.sum_cons]
    congr 1
    induction rest with
    | nil => rfl
    | cons ps rest ih =>
      rw [List.flatMap_cons, words_append, words_append, none, ih, List.map_cons, List.sum_cons,
        Nat.zero_add]

/-- Infinity is a word in a text, though it is none in a tree. -/
def isInfinite : Piece → Bool
  | literal x => x.isInf
  | _ => false

theorem countP_lexemesOfNumber {x : Float} (number : x.isNaN = false) :
    (lexemesOfNumber x).countP Lexeme.isWord = if x.isInf then 1 else 0 := by
  unfold lexemesOfNumber
  cases finite : Dyadic.ofFloat? x with
  | some d =>
    rw [Dyadic.isInf_of_ofFloat? finite]
    cases negative : d.negative <;> simp [negative, Lexeme.isWord]
  | none =>
    rw [Dyadic.isInf_of_ofFloat?_eq_none finite number, number]
    by_cases negative : x < 0
    · simp only [negative, if_true]
      rfl
    · simp only [negative, if_false]
      rfl

theorem isWord_of_ofChar? {c : Char} {kind : TokenKind} {text : String}
    (h : TokenKind.ofChar? c = some kind) : Lexeme.isWord ⟨kind, text⟩ = false := by
  unfold TokenKind.ofChar? at h
  split at h <;> first | (cases h; rfl) | cases h

/-- The names and texts among the lexemes of pieces come from names, texts and infinities. -/
theorem countP_lexemesOf (numbers : ∀ x, .literal x ∈ ps → x.isNaN = false) :
    (lexemesOf ps).countP Lexeme.isWord = words ps + ps.countP isInfinite := by
  induction ps with
  | nil => rfl
  | cons p ps ih =>
    have rest := ih fun x mem => numbers x (List.mem_cons_of_mem _ mem)
    have first : p.lexemes.countP Lexeme.isWord =
        (if p.isWord then 1 else 0) + if p.isInfinite then 1 else 0 := by
      cases p with
      | mark c kind isMark => simp [lexemes, isWord_of_ofChar? isMark, isWord, isInfinite]
      | literal x =>
        rw [lexemes, countP_lexemesOfNumber (numbers x (List.mem_cons_self ..))]
        exact (Nat.zero_add _).symm
      | _ => rfl
    rw [lexemesOf_cons, List.countP_append, first, rest, words_cons, List.countP_cons]
    omega

end Piece

namespace Filter

mutual

/-- Trees that are the same have as many names and texts. -/
theorem words_eq_of_same : ∀ f g : Filter, f.same g → Piece.words f.pieces = Piece.words g.pieces
  | text s, g => fun h => by
    cases g with
    | text s' => rfl
    | _ => cases h
  | number x, g => fun h => by
    cases g with
    | number x' => rfl
    | _ => cases h
  | length, g => fun h => by
    cases g with
    | length => rfl
    | _ => cases h
  | select s, g => fun h => by
    cases g with
    | select s' =>
      rw [same, beq_iff_eq] at h
      rw [h]
    | _ => cases h
  | path steps, g => fun h => by
    cases g with
    | path steps' =>
      rw [same, beq_iff_eq] at h
      rw [h]
    | _ => cases h
  | binary op left right, g => fun h => by
    cases g with
    | binary op' left' right' =>
      simp only [same, Bool.and_eq_true, beq_iff_eq] at h
      obtain ⟨⟨rfl, h⟩, h'⟩ := h
      simp only [pieces, Piece.words_append, words_eq_of_same left left' h,
        words_eq_of_same right right' h']
    | _ => cases h
  | group members, g => fun h => by
    cases g with
    | group members' =>
      have members := words_eq_of_sameAll members members' h
      rw [pieces, pieces, Piece.words_joined rfl, Piece.words_joined rfl, members]
    | _ => cases h
  | mapping entries, g => fun h => by
    cases g with
    | mapping entries' =>
      have same := words_eq_of_sameEntries entries entries' h
      have none : Piece.words Piece.comma = 0 := rfl
      rw [pieces, pieces, Piece.words_cons, Piece.words_cons, Piece.words_append,
        Piece.words_append, Piece.words_joined none, Piece.words_joined none, same]
    | _ => cases h
  | pipe stages, g => fun h => by
    cases g with
    | pipe stages' =>
      have stages := words_eq_of_sameAll stages stages' h
      rw [pieces, pieces, Piece.words_joined rfl, Piece.words_joined rfl, stages]
    | _ => cases h

theorem words_eq_of_sameAll : ∀ fs gs : List Filter, sameAll fs gs →
    (piecesOfAll fs).map Piece.words = (piecesOfAll gs).map Piece.words
  | [], [] => fun _ => rfl
  | [], _ :: _ => nofun
  | _ :: _, [] => nofun
  | f :: fs, g :: gs => fun h => by
    rw [sameAll, Bool.and_eq_true] at h
    simp only [piecesOfAll, List.map_cons, words_eq_of_same f g h.1,
      words_eq_of_sameAll fs gs h.2]

theorem words_eq_of_sameEntries : ∀ es es' : List (String × Filter), sameEntries es es' →
    (piecesOfEntries es).map Piece.words = (piecesOfEntries es').map Piece.words
  | [], [] => fun _ => rfl
  | [], _ :: _ => nofun
  | _ :: _, [] => nofun
  | (name, f) :: es, (name', g) :: es' => fun h => by
    simp only [sameEntries, Bool.and_eq_true, beq_iff_eq] at h
    obtain ⟨⟨rfl, h⟩, h'⟩ := h
    simp only [piecesOfEntries, List.map_cons, Piece.words_cons, words_eq_of_same f g h,
      words_eq_of_sameEntries es es' h']

end

end Filter

end TreeQuery
