import LispIndex.Proofs.ExportMarks
import LispIndex.Proofs.NameTable
import LispIndex.Proofs.UnseenChanges

/-!
Marking a document once is enough. The marks do not depend on the order in which the names are gone
through, they change nothing but themselves, and since no question that leads to them looks at them,
marking again changes nothing at all.
-/

namespace LispIndex

def Atom.unmarked (a : Atom) : Atom :=
  { a with links := [], exported := false }

private theorem Atom.unmarked_unseen : Export.Unseen unmarked := by
  constructor <;> intro a <;> rfl

namespace Document

structure MarkedOnce (d : Document) : Prop where
  anyOrder : ∀ order, order.Perm d.symbols.toList → d.annotateAlong order = d.annotate
  marks : ∀ (i : Nat) (a : Atom), d.annotate.1.atoms[i]? = some a →
    a.links = ((d.context? i).map Export.Context.links).getD [] ∧
      a.exported = (d.context? i).any Export.Context.exported
  count : d.annotate.2 = d.annotate.1.atoms.countP Atom.exported
  unlisted : ∀ i, ¬ d.Lists i → d.annotate.1.atoms[i]? = d.atoms[i]?
  atoms : d.annotate.1.atoms.map Atom.unmarked = d.atoms.map Atom.unmarked
  root : d.annotate.1.root = d.root
  symbols : d.annotate.1.symbols = d.symbols
  lineEnding : d.annotate.1.lineEnding = d.lineEnding
  again : ∀ order, order.Perm d.annotate.1.symbols.toList →
    d.annotate.1.annotateAlong order = d.annotate

private theorem bindings_map {change : Atom → Atom} (unseen : Export.Unseen change)
    (atoms : Array Atom)
    (indices : List Nat) : bindings (atoms.map change) indices = bindings atoms indices := by
  simp only [bindings, unseen.table_map, unseen.bindingContext?_map]

private theorem bindings_again (atoms others : Array Atom) (indices : List Nat) :
    (bindings atoms indices).foldl mark ((bindings atoms indices).foldl mark others) =
      (bindings atoms indices).foldl mark others := by
  apply Array.ext_getElem?
  intro i
  rw [bindings_marks, bindings_marks, Option.map_map]
  apply Option.map_congr
  intro a _
  rw [Function.comp_apply]
  split
  next => cases linked? atoms i <;> rfl
  next => rfl

variable {d : Document} {native : String → Bool}

private theorem annotateAlong_eq {order : List (String × List Nat)}
    (same : order.Perm d.symbols.toList) :
    d.annotateAlong order = d.annotate := by
  have indices : (order.flatMap (·.2)).Perm (d.symbols.toList.flatMap (·.2)) :=
    same.flatMap_right _
  have found : (bindings d.atoms (order.flatMap (·.2))).Perm
      (bindings d.atoms (d.symbols.toList.flatMap (·.2))) := indices.filterMap _
  -- Every binding is marked by its own context, whenever its turn comes.
  have atoms : (bindings d.atoms (order.flatMap (·.2))).foldl mark d.atoms =
      (bindings d.atoms (d.symbols.toList.flatMap (·.2))).foldl mark d.atoms := by
    apply Array.ext_getElem?
    intro i
    rw [bindings_marks, bindings_marks]
    simp only [indices.mem_iff]
  rw [annotateAlong, atoms, found.countP_eq, annotate, annotateAlong]

private theorem annotate_unmarked (d : Document) :
    d.annotate.1.atoms.map Atom.unmarked = d.atoms.map Atom.unmarked := by
  apply Array.ext_getElem?
  intro i
  rw [Array.getElem?_map, Array.getElem?_map]
  exact d.annotate_map Atom.unmarked (fun _ _ => rfl) i

private theorem annotate_again (d : Document) : d.annotate.1.annotate = d.annotate := by
  have found : bindings d.annotate.1.atoms d.symbolIndices = bindings d.atoms d.symbolIndices := by
    rw [← bindings_map Atom.unmarked_unseen, annotate_unmarked, bindings_map Atom.unmarked_unseen]
  have marked : (bindings d.atoms d.symbolIndices).foldl mark d.annotate.1.atoms =
      d.annotate.1.atoms := bindings_again d.atoms d.atoms d.symbolIndices
  calc d.annotate.1.annotate
    _ = ({ d with
          atoms := (bindings d.annotate.1.atoms d.symbolIndices).foldl mark d.annotate.1.atoms },
        (bindings d.annotate.1.atoms d.symbolIndices).countP (·.2.exported)) := rfl
    _ = d.annotate := by
      rw [found, marked]
      rfl

/-- No place is listed twice, under one name as little as under two. -/
theorem Sourced.symbolIndices_nodup (sourced : d.Sourced)
    (table : d.symbols = .ofAtoms native d.atoms) : d.symbolIndices.Nodup := by
  have located {name : String} {places : List Nat}
      (listed : (name, places) ∈ d.symbols.toList) : d.Locates native name places :=
    ((sourced.getElem?_symbols table name places).mp
      (Std.TreeMap.mem_toList_iff_getElem?_eq_some.mp listed)).2
  rw [symbolIndices, List.nodup_flatMap]
  refine ⟨fun entry listed => (located listed).1.nodup, ?_⟩
  apply Std.TreeMap.distinct_keys_toList.imp_of_mem
  intro entry other first second apart i left right
  obtain ⟨a, here, -, named, -⟩ := ((located first).2 i).mp left
  obtain ⟨b, there, -, spelled, -⟩ := ((located second).2 i).mp right
  obtain rfl := Option.some.inj (here.symm.trans there)
  exact apart (Std.LawfulEqCmp.compare_eq_iff_eq.mpr (named.symm.trans spelled))

private theorem Sourced.symbolIndices_perm (sourced : d.Sourced)
    (table : d.symbols = .ofAtoms native d.atoms) :
    d.symbolIndices.Perm ((List.range d.atoms.size).filter (· ∈ d.symbolIndices)) := by
  rw [List.perm_ext_iff_of_nodup (sourced.symbolIndices_nodup table) (List.nodup_range.filter _)]
  intro i
  rw [List.mem_filter, List.mem_range, decide_eq_true_eq, iff_and_self]
  intro listed
  obtain ⟨a, here, -⟩ := (sourced.lists_iff table).mp (mem_symbolIndices.mp listed)
  exact (Array.getElem?_eq_some_iff.mp here).1

private theorem linked?_exported (indexed : Export.Indexed d.atoms) {i : Nat}
    (listed : i ∈ d.symbolIndices) (bound : i < d.atoms.size) :
    (linked? d.atoms i).any Export.Context.exported =
      (d.context? i).any Export.Context.exported := by
  rw [linked?, Export.bindingContext?_table indexed bound, context?, if_pos listed]
  cases found : Export.bindingContext? (.scan d.atoms) d.atoms i with
  | none => rfl
  | some c =>
    rw [Option.filter_some]
    cases links : c.links with
    | nil => simp [Export.bindingContext?_silent found links]
    | cons link rest => rfl

private theorem bindings_countP (atoms : Array Atom) (indices : List Nat) :
    (bindings atoms indices).countP (·.2.exported) =
      indices.countP fun i => (linked? atoms i).any Export.Context.exported := by
  have found : bindings atoms indices =
      indices.filterMap fun i => (linked? atoms i).map (i, ·) := rfl
  rw [found, List.countP_filterMap]
  apply List.countP_congr
  intro i _
  cases linked? atoms i <;> rfl

/-- The count of a marking is the number of atoms that are exported behind it. -/
theorem Unmarked.count (unmarked : d.Unmarked) (sourced : d.Sourced)
    (table : d.symbols = .ofAtoms native d.atoms) :
    d.annotate.2 = d.annotate.1.atoms.countP Atom.exported := by
  have size : d.annotate.1.atoms.size = d.atoms.size := (marks_atoms _ d.atoms).1
  have perm := sourced.symbolIndices_perm table
  let exports (i : Nat) : Bool := (d.context? i).any Export.Context.exported
  calc d.annotate.2
    _ = d.symbolIndices.countP exports := by
      rw [annotate, annotateAlong, bindings_countP]
      apply List.countP_congr
      intro i listed
      have bound := List.mem_range.mp (List.mem_of_mem_filter (perm.mem_iff.mp listed))
      rw [linked?_exported unmarked.indexed listed bound]
    _ = (List.range d.atoms.size).countP exports := by
      rw [perm.countP_eq, List.countP_filter]
      apply List.countP_congr
      intro i _
      rw [Bool.and_eq_true, decide_eq_true_eq, and_iff_left_iff_imp]
      intro exported
      obtain ⟨c, found, -⟩ := (Option.any_eq_true _ _).mp exported
      exact mem_symbolIndices.mpr (of_context? found).1
    _ = (d.annotate.1.atoms.toList.map Atom.index).countP exports := by
      rw [sourced.annotate.indices, size]
    _ = d.annotate.1.atoms.toList.countP Atom.exported := by
      rw [List.countP_map]
      apply List.countP_congr
      intro a member
      obtain ⟨i, found⟩ := List.mem_iff_getElem?.mp member
      rw [Array.getElem?_toList] at found
      rw [Function.comp_apply, sourced.annotate.indexed i a found, (unmarked.marks found).2]
    _ = d.annotate.1.atoms.countP Atom.exported := Array.countP_toList

theorem Unmarked.markedOnce (unmarked : d.Unmarked) (sourced : d.Sourced)
    (table : d.symbols = .ofAtoms native d.atoms) : d.MarkedOnce where
  anyOrder _ same := annotateAlong_eq same
  marks _ _ found := unmarked.marks found
  count := unmarked.count sourced table
  unlisted i none := by
    rw [annotate_getElem? unmarked.indexed, context?, if_neg (mt mem_symbolIndices.mp none)]
    exact Option.map_id'
  atoms := d.annotate_unmarked
  root := rfl
  symbols := rfl
  lineEnding := rfl
  again order same := (annotateAlong_eq same).trans d.annotate_again

end Document

/-- Whatever the text is, its document is marked in the same way in every order and by every
repetition, and nothing but the marks of the listed atoms changes. -/
theorem build_marked_once (native : String → Bool) (text : String) :
    (Document.build native text).MarkedOnce :=
  (build_unmarked native text).markedOnce (build_sourced native text) rfl

end LispIndex
