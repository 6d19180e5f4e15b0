/-!
# Members by name

Objects are lists of named members in the order in which they are gone through. A name occurs once:
giving a member to a name that is taken replaces the member where it stands.

## Main definitions

* `putMember` — give a member to a name
* `collectMembers` — members given one after the other
-/

namespace TreeQuery

variable {α : Type}

/-- Give a member to a name, in place of the one it has. -/
def putMember (name : String) (member : α) : List (String × α) → List (String × α)
  | [] => [(name, member)]
  | (name', member') :: rest =>
    if name' = name then (name, member) :: rest
    else (name', member') :: putMember name member rest

/-- The members that are left when they are given one after the other. -/
def collectMembers (members : List (String × α)) : List (String × α) :=
  members.foldl (fun collected (name, member) => putMember name member collected) []

/-- What a name finds is one of the members. -/
theorem mem_of_lookup {name : String} {member : α} {members : List (String × α)}
    (h : members.lookup name = some member) : (name, member) ∈ members := by
  induction members with
  | nil => cases h
  | cons entry rest ih =>
    obtain ⟨first, taken⟩ := entry
    rw [List.lookup_cons] at h
    split at h
    · next same =>
      cases h
      rw [beq_iff_eq.mp same]
      exact List.mem_cons_self ..
    · exact List.mem_cons_of_mem _ (ih h)

/-- Giving a member to a name brings in that member alone. -/
theorem mem_of_mem_putMember {name : String} {member : α} {members : List (String × α)}
    {entry : String × α} (h : entry ∈ putMember name member members) :
    entry = (name, member) ∨ entry ∈ members := by
  induction members with
  | nil => exact .inl (List.mem_singleton.mp h)
  | cons first rest ih =>
    unfold putMember at h
    split at h
    · rcases List.mem_cons.mp h with h | h
      · exact .inl h
      · exact .inr (List.mem_cons_of_mem _ h)
    · rcases List.mem_cons.mp h with h | h
      · exact .inr (h ▸ List.mem_cons_self ..)
      · exact (ih h).imp_right (List.mem_cons_of_mem _)

/-- The members that are left are among those that were given. -/
theorem mem_of_mem_collectMembers {members : List (String × α)} {entry : String × α}
    (h : entry ∈ collectMembers members) : entry ∈ members := by
  have fold (given collected : List (String × α))
      (h : entry ∈ given.foldl (fun cs (name, member) => putMember name member cs) collected) :
      entry ∈ collected ∨ entry ∈ given := by
    induction given generalizing collected with
    | nil => exact .inl h
    | cons first rest ih =>
      rcases ih _ h with h | h
      · rcases mem_of_mem_putMember h with h | h
        · exact .inr (h ▸ List.mem_cons_self ..)
        · exact .inl h
      · exact .inr (List.mem_cons_of_mem _ h)
  exact (fold members [] h).resolve_left List.not_mem_nil

/-- After a member was given to a name, the name has that member and others are as before. -/
theorem lookup_putMember (name name' : String) (member : α) (members : List (String × α)) :
    (putMember name member members).lookup name' =
      if name' = name then some member else members.lookup name' := by
  induction members with
  | nil =>
    by_cases h : name' = name
    · simp [putMember, h]
    · simp [putMember, List.lookup_cons, beq_eq_false_iff_ne.mpr h, h]
  | cons entry rest ih =>
    obtain ⟨first, taken⟩ := entry
    unfold putMember
    split
    · next same =>
      subst same
      by_cases h : name' = first
      · simp [h]
      · simp [List.lookup_cons, beq_eq_false_iff_ne.mpr h, h]
    · next other =>
      by_cases h : name' = first
      · simp [h, other]
      · simp [List.lookup_cons, beq_eq_false_iff_ne.mpr h, ih]

/-- Giving a member to a name adds no name twice. -/
theorem nodup_names_putMember {name : String} {member : α} {members : List (String × α)}
    (h : (members.map Prod.fst).Nodup) :
    ((putMember name member members).map Prod.fst).Nodup := by
  induction members with
  | nil => simp [putMember]
  | cons entry rest ih =>
    obtain ⟨first, taken⟩ := entry
    simp only [List.map_cons, List.nodup_cons] at h
    unfold putMember
    split
    · next same => simpa [← same] using h
    · next other =>
      simp only [List.map_cons, List.nodup_cons]
      refine ⟨fun taken => ?_, ih h.2⟩
      obtain ⟨entry, mem, rfl⟩ := List.mem_map.mp taken
      rcases mem_of_mem_putMember mem with rfl | mem
      · exact other rfl
      · exact h.1 (List.mem_map_of_mem mem)

/-- Of several members given to one name, the last one is left. -/
theorem lookup_collectMembers (given : List (String × α)) (name : String) :
    (collectMembers given).lookup name = given.reverse.lookup name := by
  have fold (collected : List (String × α)) :
      (given.foldl (fun cs (name, member) => putMember name member cs) collected).lookup name =
        (given.reverse.lookup name).or (collected.lookup name) := by
    induction given generalizing collected with
    | nil => rfl
    | cons entry rest ih =>
      obtain ⟨first, member⟩ := entry
      rw [List.foldl_cons, ih, List.reverse_cons, List.lookup_append, Option.or_assoc,
        lookup_putMember]
      by_cases h : name = first
      · simp [h]
      · simp [List.lookup_cons, beq_eq_false_iff_ne.mpr h, h]
  rw [collectMembers, fold, List.lookup_nil, Option.or_none]

/-- No name is left twice. -/
theorem nodup_names_collectMembers (given : List (String × α)) :
    ((collectMembers given).map Prod.fst).Nodup := by
  have fold (collected : List (String × α)) (h : (collected.map Prod.fst).Nodup) :
      ((given.foldl (fun cs (name, member) => putMember name member cs) collected).map
        Prod.fst).Nodup := by
    induction given generalizing collected with
    | nil => exact h
    | cons first rest ih => exact ih _ (nodup_names_putMember h)
  exact fold [] List.nodup_nil

end TreeQuery
