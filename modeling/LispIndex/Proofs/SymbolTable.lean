import LispIndex.Export

/-!
The table of names. A name is in it with the places of all its occurrences, in source order.
-/

namespace LispIndex

namespace SymbolTable

theorem getElem?_record (index : Nat) (name key : String) (table : SymbolTable) :
    (record index name table)[key]? =
      if name = key then some (index :: table[key]?.getD []) else table[key]? := by
  rw [record, Std.TreeMap.getElem?_alter]
  simp only [Std.LawfulEqCmp.compare_eq_iff_eq]
  split
  next same => rw [same]
  next => rfl

def placesOf (native : String → Bool) (atoms : List Atom) (key : String) : List Nat :=
  (atoms.filter fun a => a.isTracked native && a.name == key).map Atom.index

/-- A name is in the table with all its places, unless it has none. -/
theorem getElem?_ofAtoms (native : String → Bool) (atoms : Array Atom) (key : String) :
    (ofAtoms native atoms)[key]? =
      if placesOf native atoms.toList key = [] then none
      else some (placesOf native atoms.toList key) := by
  rw [ofAtoms, ← Array.foldr_toList]
  induction atoms.toList with
  | nil => rfl
  | cons a rest ih =>
    rw [List.foldr_cons]
    by_cases here : (a.isTracked native && a.name == key) = true
    · have more : placesOf native (a :: rest) key = a.index :: placesOf native rest key := by
        simp [placesOf, here]
      rw [Bool.and_eq_true, beq_iff_eq] at here
      rw [more, if_neg (List.cons_ne_nil _ _), if_pos here.1, getElem?_record, if_pos here.2, ih]
      split
      next none => rw [none]; rfl
      next => rfl
    · have same : placesOf native (a :: rest) key = placesOf native rest key := by
        simp [placesOf, here]
      rw [same, ← ih]
      split
      next tracked => rw [getElem?_record, if_neg (by simpa [tracked] using here)]
      next => rfl

end SymbolTable

namespace Document

def Lists (d : Document) (i : Nat) : Prop :=
  ∃ (name : String) (places : List Nat), d.symbols[name]? = some places ∧ i ∈ places

theorem mem_symbolIndices {d : Document} {i : Nat} : i ∈ d.symbolIndices ↔ d.Lists i := by
  rw [symbolIndices, List.mem_flatMap]
  constructor
  · rintro ⟨⟨name, places⟩, listed, member⟩
    exact ⟨name, places, Std.TreeMap.mem_toList_iff_getElem?_eq_some.mp listed, member⟩
  · rintro ⟨name, places, found, member⟩
    exact ⟨(name, places), Std.TreeMap.mem_toList_iff_getElem?_eq_some.mpr found, member⟩

end Document

end LispIndex
