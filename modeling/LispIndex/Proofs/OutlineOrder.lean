import LispIndex.Proofs.ScopeOutline
import LispIndex.Proofs.SourceOrder

/-!
The outline of a document in the order of its source. Its entries lie one after the other in
stretches of the atoms, and what a host holds lies in the stretch of the host, its name first.
-/

namespace LispIndex

theorem Node.formsOf_sublist {items more : List Node} (behind : more <:+ items) :
    (formsOf more).Sublist (formsOf items) := by
  obtain ⟨front, rfl⟩ := behind
  rw [formsOf_append]
  exact List.sublist_append_right _ _

theorem Node.formsOf_suffix {items more : List Node} {f : Form} (behind : more <:+ items)
    (member : f ∈ formsOf more) : f ∈ formsOf items :=
  (formsOf_sublist behind).subset member

namespace Outline

variable {atoms : Array Atom} {first middle stop : Nat}

inductive Lies (atoms : Array Atom) : Nat → Nat → List ScopeEntry → Prop
  | nil {first stop : Nat} (bound : first ≤ stop) : Lies atoms first stop []
  | reference {first i stop : Nat} {bound : Bool} {a : Atom} {rest : List ScopeEntry}
      (low : first ≤ i) (found : atoms[i]? = some a) (later : Lies atoms (i + 1) stop rest) :
      Lies atoms first stop (.reference bound a :: rest)
  | host {first left middle right stop : Nat} {kind : HostKind} {range : Range}
      {name : Option Atom} {inside rest : List ScopeEntry} (inner : kind ≠ .root)
      (kinds : name.isSome = true → kind.isNamed = true) (low : first ≤ left)
      (spans : Spans atoms left right range) (front : left ≤ middle)
      (named : ∀ a, name = some a → ∃ i, left ≤ i ∧ i < middle ∧ atoms[i]? = some a)
      (within : Lies atoms middle right inside) (later : Lies atoms right stop rest) :
      Lies atoms first stop (.host kind range name inside :: rest)

namespace Lies

variable {entries more : List ScopeEntry}

theorem bound (lies : Lies atoms first stop entries) : first ≤ stop := by
  induction lies with
  | nil bound => exact bound
  | reference low found later ih => omega
  | host inner kinds low spans front named within later inside behind =>
    have filled := spans.1
    omega

theorem weaken (lies : Lies atoms middle stop entries) (low : first ≤ middle) :
    Lies atoms first stop entries := by
  cases lies with
  | nil bound => exact .nil (low.trans bound)
  | reference here found later => exact .reference (low.trans here) found later
  | host inner kinds here spans front named within later =>
    exact .host inner kinds (low.trans here) spans front named within later

theorem append (left : Lies atoms first middle entries) (right : Lies atoms middle stop more) :
    Lies atoms first stop (entries ++ more) := by
  induction left with
  | nil bound => exact right.weaken bound
  | reference low found later ih => exact .reference low found (ih right)
  | host inner kinds low spans front named within later inside behind =>
    exact .host inner kinds low spans front named within (behind right)

end Lies

variable (native : String → Bool)

private theorem noted_lies (bound : Bool) (index : Nat) :
    Lies atoms index (index + 1) (noted native atoms bound (.atom index)) := by
  have none : Lies atoms index (index + 1) [] := .nil (Nat.le_succ index)
  rw [noted, atomOf, Node.index?, Option.bind_some]
  cases found : atoms[index]? with
  | none => exact none
  | some a =>
    cases tracked : a.isTracked native with
    | true =>
      rw [Option.toList_some, List.filter_cons_of_pos tracked]
      exact .reference (Nat.le_refl _) found (.nil (Nat.le_refl _))
    | false =>
      rw [Option.toList_some, List.filter_cons_of_neg (by rw [tracked]; exact Bool.false_ne_true)]
      exact none

private theorem list_lies (bound : Bool) {items : List Node} (covers : Covers first stop items) :
    Lies atoms first stop (items.flatMap (noted native atoms bound)) := by
  induction items generalizing first with
  | nil => exact .nil covers.1
  | cons node rest ih =>
    rw [List.flatMap_cons]
    cases node with
    | atom index =>
      obtain ⟨rfl, later⟩ := covers.of_atom
      exact (noted_lies native bound index).append (ih later)
    | form span items =>
      obtain ⟨middle, inner, later⟩ := covers.of_form
      exact (ih later).weaken inner.1

private theorem headerOf_lies {node : Node} (covers : Covers first stop [node]) :
    Lies atoms first stop (headerOf native atoms node) := by
  cases node with
  | atom index =>
    obtain ⟨rfl, later⟩ := covers.of_atom
    have behind : Lies atoms (index + 1) stop [] := .nil later.1
    have listed := (noted_lies native true index).append behind
    rwa [List.append_nil] at listed
  | form span items =>
    obtain ⟨middle, inner, later⟩ := covers.of_form
    have behind : Lies atoms middle stop [] := .nil later.1
    have listed := (list_lies native true inner).append behind
    rwa [List.append_nil] at listed

theorem fromKey_suffix (v : FormView) (n : Nat) (nodes : List Node) :
    fromKey v n nodes <:+ nodes := by
  fun_induction fromKey v n nodes with
  | case1 => exact List.suffix_rfl
  | case2 => exact List.suffix_rfl
  | case3 node rest _ ih => exact ih.trans (List.suffix_cons node rest)
  | case4 n node rest ih => exact ih.trans (List.suffix_cons node rest)

theorem fromKey_succ (v : FormView) (n : Nat) (nodes : List Node) :
    fromKey v (n + 1) nodes = fromKey v 0 (fromKey v n nodes).tail := by
  induction nodes generalizing n with
  | nil => simp [fromKey]
  | cons node rest ih =>
    cases key : v.isKey node with
    | true => cases n <;> simp [fromKey, key, ih]
    | false => cases n <;> simp [fromKey, key, ih]

/-- The name of a host stands before its header. -/
theorem nameOf_before (v : FormView) (kind : HostKind) {items : List Node}
    (covers : Covers first stop items) :
    ∃ middle, first ≤ middle ∧
      (∀ a, nameOf v kind items = some a → ∃ i, first ≤ i ∧ i < middle ∧ v.atoms[i]? = some a) ∧
      Covers middle stop (fromKey v kind.headerKey (items.drop 1)) := by
  have behind (n : Nat) : fromKey v n (items.drop 1) <:+ items :=
    (fromKey_suffix v n _).trans (List.drop_suffix 1 items)
  cases named : kind.isNamed with
  | false =>
    obtain ⟨middle, low, header⟩ := covers.suffix (behind kind.headerKey)
    refine ⟨middle, low, ?_, header⟩
    intro a found
    rw [nameOf, named] at found
    cases found
  | true =>
    rw [HostKind.headerKey, if_pos named, fromKey_succ, nameOf, if_pos named]
    obtain ⟨place, low, slots⟩ := covers.suffix (behind 1)
    generalize fromKey v 1 (items.drop 1) = front at slots ⊢
    cases front with
    | nil => exact ⟨place, low, by rintro a ⟨⟩, slots⟩
    | cons node rest =>
      cases node with
      | atom index =>
        obtain ⟨rfl, later⟩ := slots.of_atom
        obtain ⟨middle, above, header⟩ := later.suffix (fromKey_suffix v 0 rest)
        exact ⟨middle, by omega, fun a found => ⟨index, low, above, found⟩, header⟩
      | form span inner =>
        obtain ⟨place, before, later⟩ := slots.of_form
        obtain ⟨middle, above, header⟩ := later.suffix (fromKey_suffix v 0 rest)
        exact ⟨middle, low.trans (before.1.trans above), by rintro a ⟨⟩, header⟩

private theorem slots_lie {slots : List Node} {body : List ScopeEntry}
    (covers : Covers first stop slots)
    (behind : ∀ middle, Covers middle stop slots.tail → Lies atoms middle stop body) :
    Lies atoms first stop (slots.head?.toList.flatMap (headerOf native atoms) ++ body) := by
  cases slots with
  | nil => exact behind first covers
  | cons node rest =>
    change Covers first stop ([node] ++ rest) at covers
    obtain ⟨middle, header, later⟩ := covers.split
    rw [List.head?_cons, Option.toList_some, List.flatMap_singleton]
    exact (headerOf_lies native header).append (behind middle later)

private theorem ofHead?_ne_root {symbol : String} {kind : HostKind}
    (found : HostKind.ofHead? symbol = some kind) : kind ≠ .root := by
  rintro rfl
  unfold HostKind.ofHead? at found
  split_ifs at found <;> cases found

theorem ofNodes_lies (nodes : List Node) (covers : Covers first stop nodes)
    (placed : ∀ f ∈ Node.formsOf nodes, Covers f.span.first f.span.stop f.items ∧
      f.span.first < f.span.stop ∧ f.span.stop ≤ atoms.size) :
    Lies atoms first stop (ofNodes native atoms nodes) := by
  fun_induction ofNodes native atoms nodes generalizing first stop with
  | case1 => exact .nil covers.1
  | case2 index rest ih =>
    obtain ⟨rfl, later⟩ := covers.of_atom
    exact (noted_lies native false index).append (ih later placed)
  | case3 span items rest plain inner ih =>
    obtain ⟨middle, inside, later⟩ := covers.of_form
    have below := fun f member => placed f (List.mem_append_left _ (List.mem_cons_of_mem _ member))
    have behind := fun f member => placed f (List.mem_append_right _ member)
    exact (inner inside below).append (ih later behind)
  | case4 span items rest v kind localizes slots =>
    rename_i inner ih
    obtain ⟨middle, inside, later⟩ := covers.of_form
    obtain ⟨exactly, filled, bound⟩ :=
      placed ⟨span, items⟩ (List.mem_append_left _ List.mem_cons_self)
    obtain ⟨rfl, rfl⟩ := inside.unique filled exactly
    obtain ⟨place, low, named, header⟩ := nameOf_before v kind inside
    obtain ⟨head, -, localized⟩ := Option.bind_eq_some_iff.mp localizes
    have suffix : slots.tail <:+ items :=
      (List.tail_suffix slots).trans ((fromKey_suffix v _ _).trans (List.drop_suffix 1 items))
    refine .host (ofHead?_ne_root localized) ?_ (Nat.le_refl _)
      (v.range_spans filled bound) low named (slots_lie native header ?_) (ih later ?_)
    · intro found
      rw [nameOf] at found
      split at found
      · assumption
      · cases found
    · intro middle body
      apply inner body
      intro f member
      exact placed f (List.mem_append_left _
        (List.mem_cons_of_mem _ (Node.formsOf_suffix suffix member)))
    · exact fun f member => placed f (List.mem_append_right _ member)

end Outline

end LispIndex
