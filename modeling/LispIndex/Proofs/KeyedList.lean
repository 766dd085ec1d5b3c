import Mathlib.Data.List.Nodup

/-!
Lists of entries under names, looked up from the front.
-/

namespace LispIndex

variable {α : Type} {entries : List (String × α)}

theorem lookup_cons_eq (entry : String × α) (rest : List (String × α)) (key : String) :
    (entry :: rest).lookup key = if key = entry.1 then some entry.2 else rest.lookup key := by
  obtain ⟨name, value⟩ := entry
  by_cases same : key = name
  · simp [same]
  · have other : (key == name) = false := by simpa using same
    simp [List.lookup_cons, other, same]

theorem lookup_filter_ne (entries : List (String × α)) (key other : String) :
    (entries.filter (·.1 != key)).lookup other =
      if other = key then none else entries.lookup other := by
  induction entries with
  | nil => simp
  | cons entry rest ih =>
    by_cases here : entry.1 = key
    · rw [List.filter_cons_of_neg (by simpa using here), ih, lookup_cons_eq, here]
      split <;> rfl
    · rw [List.filter_cons_of_pos (by simpa using here), lookup_cons_eq, lookup_cons_eq, ih]
      by_cases first : other = entry.1
      · rw [if_pos first, if_pos first, if_neg (first ▸ here)]
      · rw [if_neg first, if_neg first]

theorem lookup_eq_none (entries : List (String × α)) (key : String) :
    entries.lookup key = none ↔ key ∉ entries.map Prod.fst := by
  induction entries with
  | nil => simp
  | cons entry rest ih => by_cases here : key = entry.1 <;> simp [lookup_cons_eq, here, ih]

theorem filter_ne_of_none {key : String} (none : entries.lookup key = none) :
    entries.filter (·.1 != key) = entries := by
  rw [List.filter_eq_self]
  intro entry member
  rw [bne_iff_ne]
  rintro rfl
  exact (lookup_eq_none _ _).mp none (List.mem_map_of_mem member)

theorem length_filter_ne (distinct : (entries.map Prod.fst).Nodup) (key : String) :
    (entries.filter (·.1 != key)).length + (entries.lookup key).isSome.toNat = entries.length := by
  induction entries with
  | nil => rfl
  | cons entry rest ih =>
    rw [List.map_cons, List.nodup_cons] at distinct
    have later := ih distinct.2
    rw [lookup_cons_eq, List.length_cons]
    by_cases here : key = entry.1
    · -- The name stands here, so that no entry behind has it.
      have none : rest.lookup key = none := (lookup_eq_none _ _).mpr (here ▸ distinct.1)
      rw [none, Option.isSome_none, Bool.toNat_false] at later
      rw [if_pos here, List.filter_cons_of_neg (by simp [here]), Option.isSome_some,
        Bool.toNat_true]
      omega
    · rw [if_neg here, List.filter_cons_of_pos (by simpa using Ne.symm here), List.length_cons]
      omega

/-- Where no name has two entries, every entry is the one that is looked up. -/
theorem mem_iff_lookup (distinct : (entries.map Prod.fst).Nodup) (key : String) (value : α) :
    (key, value) ∈ entries ↔ entries.lookup key = some value := by
  induction entries with
  | nil => simp
  | cons entry rest ih =>
    rw [List.map_cons, List.nodup_cons] at distinct
    rw [List.mem_cons, lookup_cons_eq, ih distinct.2]
    by_cases here : key = entry.1
    · have later : rest.lookup key ≠ some value := by
        intro found
        have member := (ih distinct.2).mpr found
        exact distinct.1 (here ▸ List.mem_map_of_mem (f := Prod.fst) member)
      simp [here, Prod.ext_iff, eq_comm, here ▸ later]
    · simp [here, Prod.ext_iff]

end LispIndex
