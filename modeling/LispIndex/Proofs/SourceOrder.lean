import LispIndex.Export
import LispIndex.Proofs.FormTree

/-!
Documents in the order of their source: every atom ends before the next one starts, and the items
of a form cover the atoms of its span one after the other. Marking exported names keeps this order.
-/

namespace LispIndex

namespace Position

private theorem le_refl (p : Position) : p ≤ p :=
  .inr ⟨rfl, Nat.le_refl _⟩

theorem le_trans {p q r : Position} (first : p ≤ q) (second : q ≤ r) : p ≤ r := by
  rw [le_def] at first second ⊢
  omega

theorem le_advance (p : Position) (text : List Char) : p ≤ p.advance text := by
  have later := advance_later p text
  rw [le_def]
  omega

end Position

theorem Atom.start_le_stop (a : Atom) : a.start ≤ a.stop :=
  a.start.le_advance a.symbol.toList

private theorem atomsFrom_follow (index : Nat) (start : Position) (lexemes : List Lexeme) :
    (∀ a ∈ atomsFrom index start lexemes, start ≤ a.start) ∧
      (atomsFrom index start lexemes).Pairwise fun a b => a.stop ≤ b.start := by
  induction lexemes generalizing index start with
  | nil => exact ⟨by simp [atomsFrom], .nil⟩
  | cons lexeme rest ih =>
    have here := start.le_advance lexeme.gap
    have behind := (start.advance lexeme.gap).le_advance lexeme.token.text
    obtain ⟨later, pairwise⟩ :=
      ih (index + 1) ((start.advance lexeme.gap).advance lexeme.token.text)
    rw [atomsFrom]
    constructor
    · intro a member
      rcases List.mem_cons.mp member with rfl | inside
      · exact here
      · exact Position.le_trans here (Position.le_trans behind (later a inside))
    · refine List.pairwise_cons.mpr ⟨?_, pairwise⟩
      intro b inside
      rw [Atom.stop, String.toList_ofList]
      exact later b inside

namespace Covers

variable {first stop : Nat} {items more : List Node}

theorem split (covers : Covers first stop (items ++ more)) :
    ∃ middle, Covers first middle items ∧ Covers middle stop more := by
  obtain ⟨bound, leaves⟩ := covers
  rw [Node.leavesOf_append, Span.indices, eq_comm] at leaves
  obtain ⟨count, within, left, right⟩ := List.range'_eq_append_iff.mp leaves
  have inside : count ≤ stop - first := within
  refine ⟨first + count, ⟨Nat.le_add_right _ _, ?_⟩, ⟨by omega, ?_⟩⟩
  · rw [left, Span.indices, Nat.add_sub_cancel_left]
  · rw [right, Span.indices, Nat.mul_one, Nat.sub_sub]

theorem suffix (covers : Covers first stop items) (behind : more <:+ items) :
    ∃ middle, first ≤ middle ∧ Covers middle stop more := by
  obtain ⟨front, rfl⟩ := behind
  obtain ⟨middle, before, after⟩ := covers.split
  exact ⟨middle, before.1, after⟩

/-- Items with an atom cover one stretch only. -/
theorem unique {middle other : Nat} (left : Covers first stop items) (filled : middle < other)
    (right : Covers middle other items) : first = middle ∧ stop = other := by
  have same : List.range' first (stop - first) = List.range' middle (other - middle) :=
    left.2.symm.trans right.2
  have bound := left.1
  obtain ⟨count, empty | start⟩ := List.range'_inj.mp same
  · omega
  · omega

theorem of_nil (covers : Covers first stop []) : first = stop := by
  have none : stop - first = 0 := by simpa [Node.leavesOf, Span.indices] using covers.2.symm
  exact Nat.le_antisymm covers.1 (Nat.le_of_sub_eq_zero none)

theorem of_atom {index : Nat} (covers : Covers first stop (.atom index :: items)) :
    index = first ∧ Covers (first + 1) stop items := by
  change Covers first stop ([.atom index] ++ items) at covers
  obtain ⟨middle, single, rest⟩ := covers.split
  obtain ⟨rfl, rfl⟩ := single.unique (Nat.lt_succ_self index) (.atom index)
  exact ⟨rfl, rest⟩

theorem of_form {span : Span} {inner : List Node}
    (covers : Covers first stop (.form span inner :: items)) :
    ∃ middle, Covers first middle inner ∧ Covers middle stop items := by
  change Covers first stop ([.form span inner] ++ items) at covers
  obtain ⟨middle, single, rest⟩ := covers.split
  refine ⟨middle, ⟨single.1, ?_⟩, rest⟩
  rw [← single.2]
  exact (List.append_nil _).symm

end Covers

structure Document.Sourced (d : Document) : Prop where
  indexed : ∀ i (a : Atom), d.atoms[i]? = some a → a.index = i
  follow : ∀ (i j : Nat) (a b : Atom), d.atoms[i]? = some a → d.atoms[j]? = some b → i < j →
    a.stop ≤ b.start
  whole : d.root.span = ⟨0, d.atoms.size⟩
  covers : Covers 0 d.atoms.size d.root.items
  forms : ∀ f ∈ d.root.nested, Covers f.span.first f.span.stop f.items ∧
    f.span.first < f.span.stop ∧ f.span.stop ≤ d.atoms.size

namespace Document.Sourced

variable {d : Document} {i j : Nat} {a b : Atom}

private theorem start_le (sourced : d.Sourced) (first : d.atoms[i]? = some a)
    (second : d.atoms[j]? = some b) (order : i ≤ j) : a.start ≤ b.start := by
  rcases Nat.lt_or_eq_of_le order with earlier | rfl
  · exact Position.le_trans a.start_le_stop (sourced.follow i j a b first second earlier)
  · obtain rfl := Option.some.inj (first.symm.trans second)
    exact a.start.le_refl

private theorem stop_le (sourced : d.Sourced) (first : d.atoms[i]? = some a)
    (second : d.atoms[j]? = some b) (order : i ≤ j) : a.stop ≤ b.stop := by
  rcases Nat.lt_or_eq_of_le order with earlier | rfl
  · exact Position.le_trans (sourced.follow i j a b first second earlier) b.start_le_stop
  · obtain rfl := Option.some.inj (first.symm.trans second)
    exact a.stop.le_refl

end Document.Sourced

def Spans (atoms : Array Atom) (first stop : Nat) (r : Range) : Prop :=
  first < stop ∧ ∃ a b, atoms[first]? = some a ∧ atoms[stop - 1]? = some b ∧ r = ⟨a.start, b.stop⟩

theorem Spans.single {atoms : Array Atom} {i : Nat} {a : Atom} (found : atoms[i]? = some a) :
    Spans atoms i (i + 1) a.range :=
  ⟨Nat.lt_succ_self i, a, a, found, found, rfl⟩

def Range.Within (inner outer : Range) : Prop :=
  outer.start ≤ inner.start ∧ inner.stop ≤ outer.stop

theorem Document.Sourced.within {d : Document} (sourced : d.Sourced) {first left right stop : Nat}
    {inner outer : Range} (part : Spans d.atoms left right inner)
    (whole : Spans d.atoms first stop outer) (low : first ≤ left) (high : right ≤ stop) :
    inner.Within outer := by
  obtain ⟨filled, a, b, start, last, rfl⟩ := part
  obtain ⟨-, c, e, opening, ending, rfl⟩ := whole
  exact ⟨sourced.start_le opening start low, sourced.stop_le last ending (by omega)⟩

theorem FormView.range_spans (v : FormView) (filled : v.form.span.first < v.form.span.stop)
    (bound : v.form.span.stop ≤ v.atoms.size) :
    Spans v.atoms v.form.span.first v.form.span.stop v.range := by
  have first := Array.getElem?_eq_getElem (Nat.lt_of_lt_of_le filled bound)
  have last := Array.getElem?_eq_getElem (show v.form.span.stop - 1 < v.atoms.size by omega)
  refine ⟨filled, _, _, first, last, ?_⟩
  rw [range, first?, last?, if_pos filled, if_pos filled, first, last]

theorem build_sourced (native : String → Bool) (text : String) :
    (Document.build native text).Sourced where
  indexed i a found := by
    rw [← Array.getElem?_toList, build_atoms] at found
    rw [atomsFrom_index 0 .origin _ i a found, Nat.zero_add]
  follow i j a b first second earlier := by
    rw [← Array.getElem?_toList, build_atoms] at first second
    obtain ⟨low, rfl⟩ := List.getElem?_eq_some_iff.mp first
    obtain ⟨high, rfl⟩ := List.getElem?_eq_some_iff.mp second
    exact List.pairwise_iff_getElem.mp (atomsFrom_follow 0 .origin _).2 i j low high earlier
  whole := by
    rw [build_size]
    rfl
  covers := by
    rw [build_size]
    exact (build_rest native text).covers
  forms f nested := by
    rw [build_size]
    exact Nesting.made_covers ((build_rest native text).made f nested)

namespace Document

private theorem mark_atoms (atoms : Array Atom) (binding : Nat × Export.Context) (i : Nat)
    (a : Atom) (found : (mark atoms binding)[i]? = some a) :
    ∃ b : Atom, atoms[i]? = some b ∧ a.symbol = b.symbol ∧ a.start = b.start ∧
      a.index = b.index := by
  rw [mark, Array.getElem?_modify] at found
  split at found
  · obtain ⟨b, here, rfl⟩ := Option.map_eq_some_iff.mp found
    exact ⟨b, here, rfl, rfl, rfl⟩
  · exact ⟨a, found, rfl, rfl, rfl⟩

theorem marks_atoms (bindings : List (Nat × Export.Context)) (atoms : Array Atom) :
    (bindings.foldl mark atoms).size = atoms.size ∧
      ∀ (i : Nat) (a : Atom), (bindings.foldl mark atoms)[i]? = some a →
        ∃ b : Atom, atoms[i]? = some b ∧ a.symbol = b.symbol ∧ a.start = b.start ∧
          a.index = b.index := by
  induction bindings generalizing atoms with
  | nil => exact ⟨rfl, fun i a found => ⟨a, found, rfl, rfl, rfl⟩⟩
  | cons binding rest ih =>
    obtain ⟨size, later⟩ := ih (mark atoms binding)
    refine ⟨size.trans Array.size_modify, ?_⟩
    intro i a found
    obtain ⟨b, here, symbol, start, index⟩ := later i a found
    obtain ⟨c, there, symbols, starts, indices⟩ := mark_atoms atoms binding i b here
    exact ⟨c, there, symbol.trans symbols, start.trans starts, index.trans indices⟩

theorem Sourced.annotate {d : Document} (sourced : d.Sourced) : d.annotate.1.Sourced := by
  obtain ⟨size, places⟩ := marks_atoms (bindings d.atoms d.symbolIndices) d.atoms
  constructor
  · intro i a found
    obtain ⟨b, here, -, -, index⟩ := places i a found
    rw [index, sourced.indexed i b here]
  · intro i j a b first second earlier
    obtain ⟨c, here, symbol, start, -⟩ := places i a first
    obtain ⟨e, there, -, other, -⟩ := places j b second
    rw [Atom.stop, symbol, start, other]
    exact sourced.follow i j c e here there earlier
  · exact sourced.whole.trans (congrArg (Span.mk 0) size.symm)
  · exact size.symm ▸ sourced.covers
  · intro f nested
    obtain ⟨covers, filled, bound⟩ := sourced.forms f nested
    exact ⟨covers, filled, bound.trans size.ge⟩

end Document

theorem parse_sourced (native : String → Bool) (text : String) :
    (Document.parse native text).Sourced :=
  (build_sourced native text).annotate

end LispIndex
