import LispIndex.Proofs.Parents

/-!
What stands at a position. Ranges include both ends, so that neighbours share a position; still the
search for an atom, which enters the first form there and never comes back, finds the first atom,
and the search for a form, which enters the last one, finds the last form.
-/

namespace LispIndex

namespace Range

variable {r inner outer : Range} {p : Position}

theorem contains_iff : r.contains p = true ↔ r.start ≤ p ∧ p ≤ r.stop := by
  rw [contains, Bool.and_eq_true, decide_eq_true_eq, decide_eq_true_eq]

private theorem Within.contains (within : inner.Within outer) (here : inner.contains p = true) :
    outer.contains p = true := by
  obtain ⟨low, high⟩ := contains_iff.mp here
  exact contains_iff.mpr ⟨Position.le_trans within.1 low, Position.le_trans high within.2⟩

end Range

namespace Covers

variable {first stop left right : Nat} {items more : List Node}

private theorem isEmpty (covers : Covers first stop items) (filled : first < stop) :
    items.isEmpty = false := by
  rw [List.isEmpty_eq_false_iff]
  rintro rfl
  exact absurd covers.of_nil (Nat.ne_of_lt filled)

private theorem bounds (outer : Covers first stop items) (inner : Covers left right more)
    (filled : left < right) (part : Node.leavesOf more ⊆ Node.leavesOf items) :
    first ≤ left ∧ right ≤ stop := by
  have low := outer.mem_leavesOf.mp (part (inner.mem_leavesOf.mpr ⟨Nat.le_refl left, filled⟩))
  have last : left ≤ right - 1 ∧ right - 1 < right := by omega
  have high := outer.mem_leavesOf.mp (part (inner.mem_leavesOf.mpr last))
  omega

end Covers

def firstAt? (atoms : Array Atom) (p : Position) (indices : List Nat) : Option Atom :=
  (indices.filterMap (atoms[·]?)).find? (·.contains p)

section

variable (atoms : Array Atom) (p : Position)

theorem firstAt?_append (left right : List Nat) :
    firstAt? atoms p (left ++ right) = (firstAt? atoms p left).or (firstAt? atoms p right) := by
  rw [firstAt?, List.filterMap_append, List.find?_append]
  rfl

private theorem firstAt?_single (i : Nat) :
    firstAt? atoms p [i] = atoms[i]?.filter (·.contains p) := by
  rw [firstAt?, List.filterMap_cons, List.filterMap_nil]
  cases atoms[i]? with
  | none => rfl
  | some a => cases here : a.contains p <;> simp [Option.filter, here]

theorem firstAt?_eq_none_iff (indices : List Nat) : firstAt? atoms p indices = none ↔
    ∀ i ∈ indices, ∀ a, atoms[i]? = some a → ¬ a.contains p = true := by
  simp only [firstAt?, List.find?_eq_none, List.mem_filterMap]
  constructor
  · intro none i member a found
    exact none a ⟨i, member, found⟩
  · rintro none a ⟨i, member, found⟩
    exact none i member a found

end

/-- In a list that is sorted by index, the first atom that passes a test has the smallest index. -/
theorem find?_eq_some_iff_least {atoms : List Atom} {test : Atom → Bool} {a : Atom}
    (sorted : atoms.Pairwise fun a b => a.index < b.index) :
    atoms.find? test = some a ↔
      a ∈ atoms ∧ test a = true ∧ ∀ b ∈ atoms, test b = true → a.index ≤ b.index := by
  induction atoms with
  | nil => simp
  | cons first rest ih =>
    obtain ⟨below, later⟩ := List.pairwise_cons.mp sorted
    by_cases passes : test first = true
    · rw [List.find?_cons_of_pos passes, Option.some.injEq]
      constructor
      · rintro rfl
        refine ⟨List.mem_cons_self, passes, List.forall_mem_cons.mpr ⟨?_, ?_⟩⟩
        · exact fun _ => Nat.le_refl _
        · exact fun b member _ => Nat.le_of_lt (below b member)
      · rintro ⟨member, -, least⟩
        have low := least first List.mem_cons_self passes
        rcases List.mem_cons.mp member with rfl | inside
        · rfl
        · exact absurd low (Nat.not_le_of_lt (below a inside))
    · rw [List.find?_cons_of_neg passes, ih later, List.forall_mem_cons, List.mem_cons]
      constructor
      · rintro ⟨member, here, least⟩
        exact ⟨.inr member, here, fun there => absurd there passes, least⟩
      · rintro ⟨rfl | member, here, -, least⟩
        · exact absurd here passes
        · exact ⟨member, here, least⟩

namespace Document.Sourced

variable {d : Document} {v w : FormView} {p : Position} {a b : Atom} {i : Nat}

private theorem view_covers (sourced : d.Sourced) (member : v ∈ d.view.subtree) :
    v.atoms = d.atoms ∧ Covers v.form.span.first v.form.span.stop v.form.items ∧
      v.form.span.stop ≤ d.atoms.size := by
  rcases FormView.mem_subtree.mp member with rfl | ⟨f, inside, rfl⟩
  · have whole : d.view.form.span = ⟨0, d.atoms.size⟩ := sourced.whole
    rw [whole]
    exact ⟨rfl, sourced.covers, Nat.le_refl _⟩
  · obtain ⟨covers, -, bound⟩ := sourced.forms f inside
    exact ⟨rfl, covers, bound⟩

/-- A position in a stretch of the atoms of a form is in the form. -/
theorem contains_of_spans (sourced : d.Sourced) (member : v ∈ d.view.subtree) {left right : Nat}
    {r : Range} (part : Spans d.atoms left right r) (low : v.form.span.first ≤ left)
    (high : right ≤ v.form.span.stop) (here : r.contains p = true) : v.contains p = true := by
  obtain ⟨same, covers, bound⟩ := sourced.view_covers member
  have filled : v.form.span.first < v.form.span.stop :=
    Nat.lt_of_le_of_lt low (Nat.lt_of_lt_of_le part.1 high)
  have spans := v.range_spans filled (same ▸ bound)
  rw [same] at spans
  rw [FormView.contains, covers.isEmpty filled, Bool.not_false, Bool.true_and]
  exact (sourced.within part spans low high).contains here

private theorem contains_of_atom (sourced : d.Sourced) (member : v ∈ d.view.subtree)
    (found : d.atoms[i]? = some a) (inside : i ∈ v.form.leaves) (here : a.contains p = true) :
    v.contains p = true := by
  obtain ⟨-, covers, -⟩ := sourced.view_covers member
  obtain ⟨low, high⟩ := covers.mem_leavesOf.mp inside
  exact sourced.contains_of_spans member (.single found) low high here

private theorem contains_of_inside (sourced : d.Sourced) (member : v ∈ d.view.subtree)
    (inside : w ∈ v.subtree) (here : w.contains p = true) : v.contains p = true := by
  rcases FormView.mem_subtree.mp inside with rfl | ⟨f, within, rfl⟩
  · exact here
  · obtain ⟨nested, view⟩ := nested_of_mem member within
    obtain ⟨covers, filled, bound⟩ := sourced.forms f nested
    obtain ⟨-, outer, -⟩ := sourced.view_covers member
    obtain ⟨low, high⟩ := outer.bounds covers filled (Form.leaves_subset within)
    rw [view] at here
    have spans := (d.view.child f).range_spans filled bound
    exact sourced.contains_of_spans member spans low high (Bool.and_eq_true_iff.mp here).2

/-- Of two stretches with a position in common, the last atom of the first one is there. -/
theorem last_contains (sourced : d.Sourced) {f : Form} (nested : f ∈ d.root.nested)
    (around : (d.view.child f).contains p = true) (found : d.atoms[i]? = some b)
    (behind : f.span.stop ≤ i) (here : b.contains p = true) :
    ∃ k ∈ f.leaves, ∃ a, d.atoms[k]? = some a ∧ a.contains p = true := by
  obtain ⟨covers, filled, bound⟩ := sourced.forms f nested
  obtain ⟨-, first, last, -, final, range⟩ := (d.view.child f).range_spans filled bound
  refine ⟨f.span.stop - 1, covers.mem_leavesOf.mpr (by omega), last, final, ?_⟩
  have ends := (Bool.and_eq_true_iff.mp around).2
  rw [range, Range.contains_iff] at ends
  have order := sourced.follow (f.span.stop - 1) i last b final found (by omega)
  have starts := (Range.contains_iff.mp here).1
  refine Range.contains_iff.mpr ⟨?_, ends.2⟩
  exact Position.le_trans last.start_le_stop (Position.le_trans order starts)

/-- The search through some items finds the first of their atoms at the position. -/
theorem atomIn_eq (sourced : d.Sourced) (p : Position) {first stop : Nat} {items : List Node}
    (covers : Covers first stop items) (nested : ∀ f ∈ Node.formsOf items, f ∈ d.root.nested) :
    FormView.atomIn d.atoms p items = firstAt? d.atoms p (Node.leavesOf items) := by
  fun_induction FormView.atomIn d.atoms p items generalizing first stop with
  | case1 => rfl
  | case2 index rest a found here =>
    rw [Node.leavesOf, Node.leaves, firstAt?_append, firstAt?_single, found, Option.filter_some,
      if_pos here, Option.some_or]
  | case3 index rest a found here ih =>
    rw [Node.leavesOf, Node.leaves, firstAt?_append, firstAt?_single, found, Option.filter_some,
      if_neg here, Option.none_or]
    exact ih covers.of_atom.2 nested
  | case4 index rest none ih =>
    rw [Node.leavesOf, Node.leaves, firstAt?_append, firstAt?_single, none, Option.filter_none,
      Option.none_or]
    exact ih covers.of_atom.2 nested
  | case5 span inner rest here ih =>
    have direct : ⟨span, inner⟩ ∈ d.root.nested := nested _ (Node.mem_formsOf List.mem_cons_self)
    obtain ⟨middle, within, later⟩ := covers.of_form
    obtain ⟨own, filled, -⟩ := sourced.forms _ direct
    obtain ⟨-, rfl⟩ := within.unique filled own
    rw [ih within fun f member => nested f (List.mem_append_left _ (List.mem_cons_of_mem _ member)),
      Node.leavesOf, Node.leaves, firstAt?_append]
    cases inside : firstAt? d.atoms p (Node.leavesOf inner) with
    | some a => rfl
    | none =>
      -- The form is entered in vain, so nothing behind it can be at the position either.
      rw [Option.none_or, eq_comm, firstAt?_eq_none_iff]
      intro j member b found there
      obtain ⟨k, part, a, last, also⟩ := sourced.last_contains direct here found
        (later.mem_leavesOf.mp member).1 there
      exact (firstAt?_eq_none_iff d.atoms p _).mp inside k part a last also
  | case6 span inner rest here ih =>
    have direct : ⟨span, inner⟩ ∈ d.root.nested := nested _ (Node.mem_formsOf List.mem_cons_self)
    have none : firstAt? d.atoms p (Node.leavesOf inner) = none := by
      rw [firstAt?_eq_none_iff]
      intro i member a found there
      have view : d.view.child ⟨span, inner⟩ ∈ d.view.subtree :=
        FormView.mem_subtree.mpr (.inr ⟨_, direct, rfl⟩)
      exact here (sourced.contains_of_atom view found member there)
    obtain ⟨middle, -, later⟩ := covers.of_form
    rw [ih later fun f member => nested f (List.mem_append_right _ member), Node.leavesOf,
      Node.leaves, firstAt?_append, none, Option.none_or]

private theorem flatten_eq (sourced : d.Sourced) (member : v ∈ d.view.subtree) :
    v.flatten = v.form.leaves.filterMap (d.atoms[·]?) := by
  obtain ⟨same, covers, bound⟩ := sourced.view_covers member
  rw [← same] at bound ⊢
  have walk := congrArg (List.filterMap id) (flatten_covers v bound covers)
  simpa [List.filterMap_map] using walk

private theorem atomAt?_eq (sourced : d.Sourced) (member : v ∈ d.view.subtree) (p : Position) :
    v.atomAt? p = v.flatten.find? (·.contains p) := by
  obtain ⟨same, covers, -⟩ := sourced.view_covers member
  have search : FormView.atomIn v.atoms p v.form.items = firstAt? d.atoms p v.form.leaves := by
    rw [same]
    exact sourced.atomIn_eq p covers fun f inside => (nested_of_mem member inside).1
  rw [FormView.atomAt?, search, sourced.flatten_eq member]
  split
  next => rfl
  next apart =>
    rw [eq_comm]
    refine (firstAt?_eq_none_iff d.atoms p _).mpr ?_
    intro i inside a found here
    exact apart (sourced.contains_of_atom member found inside here)

private theorem flatten_sorted (sourced : d.Sourced) (member : v ∈ d.view.subtree) :
    v.flatten.Pairwise fun a b => a.index < b.index := by
  rw [sourced.flatten_eq member, Form.leaves, (sourced.view_covers member).2.1.2]
  apply List.Pairwise.filterMap _ _ (List.pairwise_lt_range' _)
  intro i j before a here b there
  rw [sourced.indexed i a here, sourced.indexed j b there]
  exact before

end Document.Sourced

/-- The search for an atom from any form of the document finds the one with the smallest index among
those of the form that are at a position, and fails only if there is none. -/
structure Document.LocatesAtoms (d : Document) : Prop where
  first : ∀ v ∈ d.view.subtree, ∀ p a, v.atomAt? p = some a ↔
    a ∈ v.flatten ∧ a.range.contains p = true ∧
      ∀ b ∈ v.flatten, b.range.contains p = true → a.index ≤ b.index
  none : ∀ v ∈ d.view.subtree, ∀ p, v.atomAt? p = none ↔
    ∀ a ∈ v.flatten, a.range.contains p = false

theorem Document.Sourced.locatesAtoms {d : Document} (sourced : d.Sourced) : d.LocatesAtoms where
  first v member p a := by
    rw [sourced.atomAt?_eq member]
    exact find?_eq_some_iff_least (sourced.flatten_sorted member)
  none v member p := by
    rw [sourced.atomAt?_eq member, List.find?_eq_none]
    simp only [Bool.not_eq_true]
    exact Iff.rfl

/-- In every document, with its exported names marked or not, the search by position finds the first
atom that is there. -/
theorem build_locates_atoms (native : String → Bool) (text : String) :
    (Document.build native text).LocatesAtoms ∧ (Document.parse native text).LocatesAtoms := by
  constructor
  · exact (build_sourced native text).locatesAtoms
  · exact (parse_sourced native text).locatesAtoms

private theorem split_of_last {α : Type} {items : List α} {test : α → Bool} {c : α}
    (last : (items.filter test).getLast? = some c) : ∃ before after,
      items = before ++ c :: after ∧ test c = true ∧ ∀ x ∈ after, ¬ test x = true := by
  rw [List.getLast?_filter, List.find?_eq_some_iff_append] at last
  obtain ⟨here, after, before, split, later⟩ := last
  refine ⟨before.reverse, after.reverse, ?_, here, ?_⟩
  · rw [← items.reverse_reverse, split]
    simp
  · intro x member passes
    have fails := later x (List.mem_reverse.mp member)
    rw [passes] at fails
    cases fails

namespace FormView

variable {v w c : FormView}

private theorem tail_subtree (v : FormView) : v.subtree.tail = v.children.flatMap subtree := by
  rw [subtree_eq, List.tail_cons, ← Form.children_nested, children, List.flatMap_map,
    List.map_flatMap]
  apply List.flatMap_congr
  intro f member
  rw [subtree_eq, List.map_cons]
  rfl

/-- A descent leads to a form and the one that holds it, or gives what it was started with. -/
theorem of_descendTo {p : Position} {found : Option (FormView × FormView)}
    (result : descendTo p found v = some (w, c)) :
    found = some (w, c) ∨ w ∈ v.subtree ∧ c ∈ w.children := by
  fun_induction descendTo p found v with
  | case1 => exact .inl result
  | case2 found v next last shorter ih =>
    have direct : next ∈ v.children := (List.mem_filter.mp (List.mem_of_getLast? last)).1
    refine .inr ?_
    rcases ih result with same | ⟨reached, held⟩
    · obtain ⟨rfl, rfl⟩ := Prod.mk.inj (Option.some.inj same)
      exact ⟨mem_subtree.mpr (.inl rfl), direct⟩
    · exact ⟨mem_subtree_child direct reached, held⟩

end FormView

namespace Document.Sourced

variable {d : Document} {v : FormView} {p : Position}

theorem filter_subtree_nil (sourced : d.Sourced) (member : v ∈ d.view.subtree)
    (apart : ¬ v.contains p = true) : v.subtree.filter (·.contains p) = [] := by
  rw [List.filter_eq_nil_iff]
  intro w inside here
  exact apart (sourced.contains_of_inside member inside here)

/-- A descent ends at the last form of the subtree at the position. -/
theorem descendTo_eq (sourced : d.Sourced) (member : v ∈ d.view.subtree) (p : Position)
    (found : Option (FormView × FormView)) :
    (FormView.descendTo p found v).map Prod.snd =
      (v.subtree.tail.filter (·.contains p)).getLast?.or (found.map Prod.snd) := by
  fun_induction FormView.descendTo p found v with
  | case1 found v none =>
    have nothing : v.subtree.tail.filter (·.contains p) = [] := by
      rw [FormView.tail_subtree, List.filter_flatMap, List.flatMap_eq_nil_iff]
      intro c direct
      apply sourced.filter_subtree_nil (FormView.child_mem member direct)
      exact List.filter_eq_nil_iff.mp (List.getLast?_eq_none_iff.mp none) c direct
    rw [nothing, List.getLast?_nil, Option.none_or]
  | case2 found v c last shorter ih =>
    obtain ⟨before, after, split, here, later⟩ := split_of_last last
    have direct (w : FormView) (listed : w ∈ before ++ c :: after) : w ∈ d.view.subtree :=
      FormView.child_mem member (split ▸ listed)
    -- Behind the last child that is at the position there is none, however deep.
    have behind : (after.flatMap FormView.subtree).filter (·.contains p) = [] := by
      rw [List.filter_flatMap, List.flatMap_eq_nil_iff]
      intro w listed
      exact sourced.filter_subtree_nil (direct w (by simp [listed])) (later w listed)
    have inside : v.subtree.tail.filter (·.contains p) =
        (before.flatMap FormView.subtree).filter (·.contains p) ++
          c :: c.subtree.tail.filter (·.contains p) := by
      rw [v.tail_subtree, split, List.flatMap_append, List.flatMap_cons, List.filter_append,
        List.filter_append, behind, List.append_nil, FormView.subtree_eq c, List.tail_cons]
      exact congrArg _ (List.filter_cons_of_pos here)
    rw [ih (direct c (by simp)), inside, List.getLast?_append, List.getLast?_cons]
    cases (c.subtree.tail.filter (·.contains p)).getLast? <;> rfl

private theorem formAt?_eq (sourced : d.Sourced) (member : v ∈ d.view.subtree) (p : Position) :
    v.formAt? p = (v.subtree.tail.filter (·.contains p)).getLast? := by
  rw [FormView.formAt?, FormView.innermostAt?]
  split
  next =>
    rw [sourced.descendTo_eq member, Option.map_none, Option.or_none]
  next apart =>
    have nothing : v.subtree.tail.filter (·.contains p) = [] := by
      rw [List.filter_eq_nil_iff]
      intro w inside here
      exact apart (sourced.contains_of_inside member (List.mem_of_mem_tail inside) here)
    rw [nothing]
    rfl

private theorem contains_eq (sourced : d.Sourced) {f : Form} (nested : f ∈ d.root.nested)
    (p : Position) :
    (d.view.child f).contains p = (d.view.child f).range.contains p := by
  obtain ⟨covers, filled, -⟩ := sourced.forms f nested
  have items : (d.view.child f).form.items.isEmpty = false := covers.isEmpty filled
  rw [FormView.contains, items, Bool.not_false, Bool.true_and]

end Document.Sourced

/-- The search for a form from any form of the document finds the last one in the order of the
source among those nested in it that are at a position, and the form that holds it. -/
structure Document.LocatesForms (d : Document) : Prop where
  last : ∀ v ∈ d.view.subtree, ∀ p,
    v.formAt? p = (v.subtree.tail.filter (·.range.contains p)).getLast?
  outer : ∀ v ∈ d.view.subtree, ∀ p c, v.formAt? p = some c →
    ∃ w, v.outerFormAt? p = some w ∧ v.SoleHolder (.form c.form.span c.form.items) w
  none : ∀ v ∈ d.view.subtree, ∀ p, v.formAt? p = none → v.outerFormAt? p = none

theorem Document.Sourced.locatesForms {d : Document} (sourced : d.Sourced) (neat : d.root.Neat) :
    d.LocatesForms where
  last v member p := by
    rw [sourced.formAt?_eq member]
    apply congrArg
    apply List.filter_congr
    intro w inside
    obtain ⟨f, within, rfl⟩ := FormView.mem_tail_subtree.mp inside
    obtain ⟨nested, view⟩ := nested_of_mem member within
    rw [view]
    exact sourced.contains_eq nested p
  outer v member p c found := by
    obtain ⟨⟨w, inner⟩, pair, rfl⟩ := Option.map_eq_some_iff.mp found
    refine ⟨w, ?_, ?_⟩
    · rw [FormView.outerFormAt?, pair]
      rfl
    · rw [FormView.innermostAt?] at pair
      split at pair
      next =>
        rcases FormView.of_descendTo pair with none | ⟨reached, direct⟩
        · cases none
        · obtain ⟨f, child, rfl⟩ := List.mem_map.mp direct
          apply FormView.soleHolder_form (neat_of_mem neat member) reached
          exact Form.mem_children.mp child
      next => cases pair
  none v member p missing := by
    rw [FormView.formAt?, Option.map_eq_none_iff] at missing
    rw [FormView.outerFormAt?, missing]
    rfl

/-- In every document, with its exported names marked or not, the search by position finds the last
form that is there. -/
theorem build_locates_forms (native : String → Bool) (text : String) :
    (Document.build native text).LocatesForms ∧ (Document.parse native text).LocatesForms := by
  have neat := build_neat native text
  constructor
  · exact (build_sourced native text).locatesForms neat
  · exact (parse_sourced native text).locatesForms neat

end LispIndex
