import LispIndex.Proofs.LetterCase
import LispIndex.Proofs.SourceOrder
import LispIndex.Proofs.SymbolTable

/-!
What the table of names of a document holds: every occurrence of every name that the language does
not define, once and in source order, and nothing else. Looking up a name in any letter case gives
the occurrences of its small letters.
-/

namespace LispIndex

namespace Document

def Occurs (d : Document) (native : String → Bool) (name : String) (i : Nat) : Prop :=
  ∃ a, d.atoms[i]? = some a ∧ a.isPrimitive = false ∧ Text.lower a.symbol = name ∧
    native name = false

def Locates (d : Document) (native : String → Bool) (name : String) (places : List Nat) : Prop :=
  places.Pairwise (· < ·) ∧ ∀ i, i ∈ places ↔ d.Occurs native name i

/-- The table holds the places of every name that occurs and no other name. -/
structure Indexes (d : Document) (native : String → Bool) : Prop where
  places : ∀ (name : String) (places : List Nat),
    d.symbols[name]? = some places ↔ places ≠ [] ∧ d.Locates native name places
  names : ∀ name ∈ d.symbols,
    Text.lower name = name ∧ native name = false ∧ isPrimitiveText name = false
  occurrences : ∀ query, d.Locates native (Text.lower query) (d.occurrences query)

variable {d : Document} {native : String → Bool} {name : String} {places others : List Nat}

theorem Locates.unique (first : d.Locates native name places)
    (second : d.Locates native name others) : places = others := by
  have same : places.Perm others := by
    rw [List.perm_ext_iff_of_nodup first.1.nodup second.1.nodup]
    intro i
    rw [first.2, second.2]
  apply same.eq_of_pairwise _ first.1 second.1
  intro i j _ _ below above
  omega

/-- What a name occurs as is lowercase, not native and no literal. -/
theorem Occurs.named {i : Nat} (occurs : d.Occurs native name i) :
    Text.lower name = name ∧ native name = false ∧ isPrimitiveText name = false := by
  obtain ⟨a, -, plain, rfl, foreign⟩ := occurs
  refine ⟨Text.lower_lower a.symbol, foreign, ?_⟩
  rw [isPrimitiveText_lower]
  exact plain

theorem Sourced.indices (sourced : d.Sourced) :
    d.atoms.toList.map Atom.index = List.range d.atoms.size := by
  apply List.ext_getElem
  · simp
  · intro i left right
    have bound : i < d.atoms.size := by simpa using left
    simp [sourced.indexed i _ (Array.getElem?_eq_getElem bound)]

theorem Sourced.locates (sourced : d.Sourced) (native : String → Bool) (name : String) :
    d.Locates native name (SymbolTable.placesOf native d.atoms.toList name) := by
  constructor
  · -- The places are a part of all indices, which increase.
    have part := (List.filter_sublist (l := d.atoms.toList)
      (p := fun a => a.isTracked native && a.name == name)).map Atom.index
    rw [sourced.indices] at part
    exact List.pairwise_lt_range.sublist part
  · intro i
    rw [SymbolTable.placesOf, List.mem_map]
    constructor
    · rintro ⟨a, member, rfl⟩
      obtain ⟨listed, test⟩ := List.mem_filter.mp member
      obtain ⟨j, found⟩ := List.mem_iff_getElem?.mp listed
      rw [Array.getElem?_toList] at found
      simp only [Atom.isTracked, Bool.and_eq_true, Bool.not_eq_true', beq_iff_eq] at test
      refine ⟨a, ?_, test.1.1, test.2, test.2 ▸ test.1.2⟩
      rw [sourced.indexed j a found, found]
    · rintro ⟨a, found, plain, rfl, foreign⟩
      refine ⟨a, List.mem_filter.mpr ⟨?_, ?_⟩, sourced.indexed i a found⟩
      · exact Array.mem_toList_iff.mpr (Array.mem_of_getElem? found)
      · simp only [Atom.isTracked, Atom.name, plain, foreign, beq_self_eq_true, Bool.not_false,
          Bool.and_self]

theorem Sourced.getElem?_symbols (sourced : d.Sourced)
    (table : d.symbols = .ofAtoms native d.atoms) (name : String) (places : List Nat) :
    d.symbols[name]? = some places ↔ places ≠ [] ∧ d.Locates native name places := by
  have located := sourced.locates native name
  rw [table, SymbolTable.getElem?_ofAtoms]
  constructor
  · intro found
    split at found
    next => cases found
    next some =>
      obtain rfl := Option.some.inj found
      exact ⟨some, located⟩
  · rintro ⟨filled, all⟩
    obtain rfl := all.unique located
    rw [if_neg filled]

private theorem Sourced.getD_symbols (sourced : d.Sourced)
    (table : d.symbols = .ofAtoms native d.atoms)
    (name : String) : d.Locates native name (d.symbols.getD name []) := by
  have located := sourced.locates native name
  rw [Std.TreeMap.getD_eq_getD_getElem?, table, SymbolTable.getElem?_ofAtoms]
  split
  next none =>
    rw [none] at located
    exact located
  next => exact located

/-- The table lists the places of all names that the language does not define. -/
theorem Sourced.lists_iff (sourced : d.Sourced) (table : d.symbols = .ofAtoms native d.atoms)
    {i : Nat} : d.Lists i ↔ ∃ a, d.atoms[i]? = some a ∧ a.isTracked native = true := by
  constructor
  · rintro ⟨name, places, found, member⟩
    have located := ((sourced.getElem?_symbols table name places).mp found).2
    obtain ⟨a, here, plain, named, foreign⟩ := (located.2 i).mp member
    refine ⟨a, here, ?_⟩
    rw [Atom.isTracked, plain, Atom.name, named, foreign]
    rfl
  · rintro ⟨a, here, tracked⟩
    rw [Atom.isTracked, Bool.and_eq_true, Bool.not_eq_true', Bool.not_eq_true'] at tracked
    have located := sourced.getD_symbols table a.name
    have member := (located.2 i).mpr ⟨a, here, tracked.1, rfl, tracked.2⟩
    rw [Std.TreeMap.getD_eq_getD_getElem?] at member
    cases found : d.symbols[a.name]? with
    | none =>
      rw [found] at member
      cases member
    | some places =>
      rw [found] at member
      exact ⟨a.name, places, found, member⟩

theorem Sourced.indexes (sourced : d.Sourced) (table : d.symbols = .ofAtoms native d.atoms) :
    d.Indexes native := by
  have known {name : String} {places : List Nat} (found : d.symbols[name]? = some places) :
      Text.lower name = name ∧ native name = false ∧ isPrimitiveText name = false := by
    obtain ⟨filled, located⟩ := (sourced.getElem?_symbols table name places).mp found
    obtain ⟨i, member⟩ := List.exists_mem_of_ne_nil places filled
    exact ((located.2 i).mp member).named
  refine ⟨sourced.getElem?_symbols table, ?_, ?_⟩
  · intro name member
    rw [Std.TreeMap.mem_iff_isSome_getElem?, Option.isSome_iff_exists] at member
    obtain ⟨places, found⟩ := member
    exact known found
  · intro query
    rw [occurrences]
    split
    next places found =>
      rw [(known found).1]
      exact ((sourced.getElem?_symbols table query places).mp found).2
    next => exact sourced.getD_symbols table (Text.lower query)

end Document

/-- The table of names of a text is exact. -/
theorem build_indexes (native : String → Bool) (text : String) :
    (Document.build native text).Indexes native :=
  (build_sourced native text).indexes rfl

end LispIndex
