import LispIndex.Proofs.Parents

/-!
The search for forms by their heads. It goes through the forms of a subtree in the order in which
they start, asks for every head once, and leaves out, unless it is deep, what lies inside a form
that it has found.
-/

namespace LispIndex

namespace Form

variable {f g c : Form}

private theorem forms_apart {first stop : Nat} {items : List Node}
    (covers : Covers first stop items)
    (filled : ∀ c ∈ items.filterMap Node.form?, Covers c.span.first c.span.stop c.items ∧
      c.span.first < c.span.stop) :
    (items.filterMap Node.form?).Pairwise (fun c e => c.span.stop ≤ e.span.first) ∧
      ∀ c ∈ items.filterMap Node.form?, first ≤ c.span.first := by
  induction items generalizing first with
  | nil => exact ⟨.nil, nofun⟩
  | cons node rest ih =>
    cases node with
    | atom index =>
      obtain ⟨apart, behind⟩ := ih covers.of_atom.2 filled
      exact ⟨apart, fun c member => Nat.le_of_succ_le (behind c member)⟩
    | form span inner =>
      obtain ⟨middle, within, later⟩ := covers.of_form
      obtain ⟨here, others⟩ := List.forall_mem_cons.mp filled
      obtain ⟨start, stop⟩ := within.unique here.2 here.1
      obtain ⟨apart, behind⟩ := ih later others
      refine ⟨List.pairwise_cons.mpr ⟨fun e member => ?_, apart⟩, List.forall_mem_cons.mpr ⟨?_, ?_⟩⟩
      · exact stop ▸ behind e member
      · exact Nat.le_of_eq start
      · exact fun c member => Nat.le_trans within.1 (behind c member)

namespace Neat

private theorem children_apart (neat : f.Neat) :
    f.children.Pairwise fun c e => c.span.stop ≤ e.span.first :=
  (forms_apart neat.covers fun _ direct =>
    ⟨(neat.child direct).covers, neat.child_filled direct⟩).1

private theorem start_bounds (neat : f.Neat) (direct : c ∈ f.children)
    (within : g = c ∨ g ∈ c.nested) :
    c.span.first ≤ g.span.first ∧ g.span.first < c.span.stop := by
  have holds := neat.child_holds direct within
  rwa [Span.holds, Bool.and_eq_true, decide_eq_true_eq, decide_eq_true_eq] at holds

/-- The forms inside a form are listed in the order in which they start. -/
theorem nested_sorted {f : Form} (neat : f.Neat) :
    f.nested.Pairwise fun g h => g.span.first < h.span.first := by
  rw [← children_nested, List.pairwise_flatMap]
  constructor
  · intro c direct
    have shorter := weight_lt_of_mem direct
    refine List.pairwise_cons.mpr ⟨?_, (neat.child direct).nested_sorted⟩
    intro h within
    exact neat.first_lt (child_nested direct) within
  · refine neat.children_apart.imp_of_mem ?_
    intro c e left right apart g within h inside
    have before := (neat.start_bounds left (List.mem_cons.mp within)).2
    have behind := (neat.start_bounds right (List.mem_cons.mp inside)).1
    omega
termination_by f.weight

end Neat

def forest (forms : List Form) : List Form :=
  forms.flatMap fun f => f :: f.nested

theorem forest_cons (f : Form) (rest : List Form) :
    forest (f :: rest) = f :: forest (f.children ++ rest) := by
  rw [forest, forest, List.flatMap_cons, List.flatMap_append, children_nested, List.cons_append]

theorem mem_forest_of_nested {forms : List Form} (member : f ∈ forest forms)
    (within : g ∈ f.nested) : g ∈ forest forms := by
  obtain ⟨top, listed, inside⟩ := List.mem_flatMap.mp member
  refine List.mem_flatMap.mpr ⟨top, listed, List.mem_cons_of_mem _ ?_⟩
  rcases List.mem_cons.mp inside with rfl | deeper
  · exact within
  · exact nested_trans deeper within

/-- Of the forms of some trees, `visited` are those that lie inside none of `taken`, which are some
of them. -/
structure Prunes (forms visited taken : List Form) : Prop where
  listed : visited.Sublist (forest forms)
  chosen : taken.Sublist visited
  outside : ∀ g ∈ forest forms, g ∈ visited ↔ ∀ f ∈ taken, g ∉ f.nested

namespace Prunes

variable {rest visited taken : List Form}

theorem nil : Prunes [] [] [] :=
  ⟨.slnil, .slnil, nofun⟩

private theorem take (distinct : (forest (f :: rest)).Nodup) (later : Prunes rest visited taken) :
    Prunes (f :: rest) (f :: visited) (f :: taken) := by
  have split : forest (f :: rest) = f :: (f.nested ++ forest rest) := List.flatMap_cons
  rw [split] at distinct
  obtain ⟨outer, apart⟩ := List.nodup_cons.mp distinct
  rw [List.mem_append, not_or] at outer
  have disjoint := List.disjoint_of_nodup_append apart
  refine ⟨?_, later.chosen.cons_cons f, ?_⟩
  · rw [split]
    exact (later.listed.trans (List.sublist_append_right _ _)).cons_cons f
  · intro g member
    rw [split, List.mem_cons, List.mem_append] at member
    rw [List.forall_mem_cons, List.mem_cons]
    rcases member with rfl | inside | behind
    · refine iff_of_true (.inl rfl) ⟨outer.1, ?_⟩
      intro h taken within
      exact outer.2 (mem_forest_of_nested (later.listed.subset (later.chosen.subset taken)) within)
    · refine iff_of_false ?_ (fun clear => clear.1 inside)
      rintro (rfl | listed)
      · exact outer.1 inside
      · exact disjoint inside (later.listed.subset listed)
    · have other : g ≠ f := fun same => outer.2 (same ▸ behind)
      have clear : g ∉ f.nested := fun inside => disjoint inside behind
      rw [or_iff_right other, and_iff_right clear]
      exact later.outside g behind

private theorem pass (distinct : (forest (f :: rest)).Nodup)
    (inner : Prunes (f.children ++ rest) visited taken) :
    Prunes (f :: rest) (f :: visited) taken := by
  rw [forest_cons] at distinct
  have outer := (List.nodup_cons.mp distinct).1
  refine ⟨?_, inner.chosen.cons f, ?_⟩
  · rw [forest_cons]
    exact inner.listed.cons_cons f
  · intro g member
    rw [forest_cons, List.mem_cons] at member
    rw [List.mem_cons]
    rcases member with rfl | behind
    · refine iff_of_true (.inl rfl) ?_
      intro h taken within
      exact outer (mem_forest_of_nested (inner.listed.subset (inner.chosen.subset taken)) within)
    · have other : g ≠ f := fun same => outer (same ▸ behind)
      rw [or_iff_right other]
      exact inner.outside g behind

end Prunes

end Form

namespace FormView

open Form (forest)

variable {accepts : HeadTest} {found after : Findings} {outer v w : FormView}
  {views : List FormView} {f g : Form} {forms : List Form}

/-- The forms of a list whose heads pass a test that is put to each head once, in this order, and
was put to `asked` before. -/
def passing (accepts : HeadTest) (asked : Array Atom) : List FormView → List FormView
  | [] => []
  | v :: rest =>
    match v.head? with
    | none => passing accepts asked rest
    | some a =>
      if accepts asked a then v :: passing accepts (asked.push a) rest
      else passing accepts (asked.push a) rest

private theorem passing_plain (accepts : Atom → Bool) (asked : Array Atom) (views : List FormView) :
    passing (fun _ => accepts) asked views = views.filter fun v => v.head?.any accepts := by
  fun_induction passing (fun _ => accepts) asked views with
  | case1 => rfl
  | case2 asked v rest none ih => simp [none, ih]
  | case3 asked v rest a head passes ih => simp [head, passes, ih]
  | case4 asked v rest a head fails ih => simp [head, fails, ih]

namespace Findings

structure Looked (accepts : HeadTest) (found after : Findings) (views : List FormView) : Prop where
  heads : after.heads.toList = found.heads.toList ++ views.filterMap head?
  forms : after.forms.toList = found.forms.toList ++ passing accepts found.heads views

theorem Looked.nil (accepts : HeadTest) (found : Findings) : Looked accepts found found [] :=
  ⟨(List.append_nil _).symm, (List.append_nil _).symm⟩

private theorem passing_visit (accepts : HeadTest) (found : Findings) (v : FormView)
    (rest : List FormView) :
    passing accepts found.heads (v :: rest) =
      if (found.visit accepts v).2 then v :: passing accepts (found.visit accepts v).1.heads rest
      else passing accepts (found.visit accepts v).1.heads rest := by
  rw [passing, visit]
  cases v.head? with
  | none => rfl
  | some a => cases answer : accepts found.heads a <;> simp [answer]

private theorem Looked.visit (rest : Looked accepts (found.visit accepts v).1 after views) :
    Looked accepts found after (v :: views) := by
  obtain ⟨heads, forms⟩ := rest
  constructor
  · rw [heads, Findings.visit, List.filterMap_cons]
    cases v.head? with
    | none => rfl
    | some a => cases answer : accepts found.heads a <;> simp [answer]
  · rw [forms, passing_visit, Findings.visit]
    cases v.head? with
    | none => rfl
    | some a => cases answer : accepts found.heads a <;> simp [answer]

end Findings

open Findings (Looked passing_visit)

private theorem searchFrom_deep (accepts : HeadTest) (outer : FormView) (found : Findings)
    (forms : List Form) :
    Looked accepts found (searchFrom accepts true outer found forms)
      ((forest forms).map outer.child) := by
  fun_induction searchFrom accepts true outer found forms with
  | case1 found => exact .nil accepts found
  | case2 found form rest visited left ih => simp at left
  | case3 found form rest visited entered ih =>
    rw [Form.forest_cons, List.map_cons]
    exact ih.visit

/-- A search that is not deep looks at the forms that lie inside none of those it finds. -/
theorem searchFrom_shallow (accepts : HeadTest) (outer : FormView) (found : Findings)
    (forms : List Form) (distinct : (forest forms).Nodup) :
    ∃ visited taken, Form.Prunes forms visited taken ∧
      Looked accepts found (searchFrom accepts false outer found forms)
        (visited.map outer.child) ∧
      passing accepts found.heads (visited.map outer.child) = taken.map outer.child := by
  fun_induction searchFrom accepts false outer found forms with
  | case1 found => exact ⟨[], [], .nil, .nil accepts found, rfl⟩
  | case2 found form rest now left ih =>
    have answer : (found.visit accepts (outer.child form)).2 = true :=
      (Bool.and_eq_true_iff.mp left).1
    have later : (forest rest).Nodup := (List.nodup_append.mp distinct).2.1
    obtain ⟨visited, taken, prunes, looked, passes⟩ := ih later
    refine ⟨form :: visited, form :: taken, prunes.take distinct, looked.visit, ?_⟩
    rw [List.map_cons, passing_visit, if_pos answer, passes, List.map_cons]
  | case3 found form rest now entered ih =>
    have answer : ¬ (found.visit accepts (outer.child form)).2 = true := by
      intro accepted
      exact entered (Bool.and_eq_true_iff.mpr ⟨accepted, rfl⟩)
    have inner : (forest (form.children ++ rest)).Nodup :=
      (List.nodup_cons.mp (Form.forest_cons form rest ▸ distinct)).2
    obtain ⟨visited, taken, prunes, looked, passes⟩ := ih inner
    refine ⟨form :: visited, taken, prunes.pass distinct, looked.visit, ?_⟩
    rw [List.map_cons, passing_visit, if_neg answer, passes]

def searched (v : FormView) : List FormView :=
  if v.isRoot then v.subtree.tail else v.subtree

def tops (v : FormView) : List Form :=
  if v.isRoot then v.form.children else [v.form]

private theorem searched_eq (v : FormView) : v.searched = (forest v.tops).map v.child := by
  rw [searched, tops, subtree_eq]
  split
  next => rw [List.tail_cons, forest, Form.children_nested]
  next nested =>
    have self : v.child v.form = v := by
      obtain ⟨atoms, form, isRoot⟩ := v
      rw [child, show isRoot = false from eq_false_of_ne_true nested]
    rw [forest, List.flatMap_cons, List.flatMap_nil, List.append_nil, List.map_cons, self]

private theorem searchWith_eq (v : FormView) (accepts : HeadTest) (deep : Bool) :
    v.searchWith accepts deep = searchFrom accepts deep v .empty v.tops :=
  rfl

theorem mem_tail_child : v.child g ∈ (v.child f).subtree.tail ↔ g ∈ f.nested := by
  rw [mem_tail_subtree]
  constructor
  · rintro ⟨h, inside, same⟩
    rw [show g = h from congrArg form same]
    exact inside
  · intro inside
    exact ⟨g, inside, rfl⟩

theorem mem_tail_trans {u : FormView} (above : v ∈ u.subtree.tail) (below : w ∈ v.subtree.tail) :
    w ∈ u.subtree.tail := by
  obtain ⟨f, inside, rfl⟩ := mem_tail_subtree.mp above
  obtain ⟨g, within, rfl⟩ := mem_tail_subtree.mp below
  exact mem_tail_subtree.mpr ⟨g, Form.nested_trans inside within, rfl⟩

structure Findings.Asks (found : Findings) (accepts : HeadTest) (views : List FormView) : Prop where
  heads : found.heads.toList = views.filterMap head?
  forms : found.forms.toList = passing accepts #[] views

private theorem searchWith_deep (v : FormView) (accepts : HeadTest) :
    (v.searchWith accepts true).Asks accepts v.searched := by
  obtain ⟨heads, forms⟩ := searchFrom_deep accepts v .empty v.tops
  rw [← searched_eq] at heads forms
  exact ⟨heads, forms⟩

private theorem searchWith_shallow (v : FormView) (accepts : HeadTest)
    (distinct : (forest v.tops).Nodup) :
    ∃ visited : List FormView, visited.Sublist v.searched ∧
      (v.searchWith accepts false).Asks accepts visited ∧
      ∀ w ∈ v.searched, w ∈ visited ↔
        ∀ u ∈ (v.searchWith accepts false).forms, w ∉ u.subtree.tail := by
  obtain ⟨visited, taken, prunes, ⟨heads, forms⟩, passes⟩ :=
    searchFrom_shallow accepts v .empty v.tops distinct
  refine ⟨visited.map v.child, ?_, ⟨heads, forms⟩, ?_⟩
  · rw [searched_eq]
    exact prunes.listed.map v.child
  · intro w member
    rw [searched_eq] at member
    obtain ⟨g, inside, rfl⟩ := List.mem_map.mp member
    have found (u : FormView) : u ∈ (v.searchWith accepts false).forms ↔ u ∈ taken.map v.child := by
      rw [← passes, ← Array.mem_toList_iff, searchWith_eq, forms]
      rfl
    have same : v.child g ∈ visited.map v.child ↔ g ∈ visited :=
      List.mem_map_of_injective fun _ _ equal => congrArg form equal
    simp only [found, List.forall_mem_map, mem_tail_child, same]
    exact prunes.outside g inside

/-- Without a memory of what was asked, the forms that are found are those with a fitting head
inside no other such form. -/
theorem search_shallow (v : FormView) (accepts : Atom → Bool) (distinct : (forest v.tops).Nodup) :
    ∃ visited : List FormView, visited.Sublist v.searched ∧
      (v.search accepts false).heads.toList = visited.filterMap head? ∧
      (v.search accepts false).forms.toList = visited.filter (·.head?.any accepts) ∧
      ∀ w ∈ v.searched, w ∈ visited ↔
        ∀ u ∈ v.searched, u.head?.any accepts = true → w ∉ u.subtree.tail := by
  obtain ⟨visited, part, ⟨heads, forms⟩, outside⟩ :=
    v.searchWith_shallow (fun _ => accepts) distinct
  rw [passing_plain] at forms
  refine ⟨visited, part, heads, forms, ?_⟩
  have found (u : FormView) : u ∈ (v.searchWith (fun _ => accepts) false).forms ↔
      u ∈ visited ∧ u.head?.any accepts = true := by
    rw [← Array.mem_toList_iff, forms, List.mem_filter]
  simp only [found] at outside
  have not_outside {u : FormView} (inside : u ∈ v.searched) (unseen : u ∉ visited) :
      ∃ top ∈ visited, top.head?.any accepts = true ∧ u ∈ top.subtree.tail := by
    simpa [outside u inside] using unseen
  intro w member
  rw [outside w member]
  constructor
  · intro clear u inside fits below
    -- A form that fits is found itself or lies inside one that is.
    by_cases seen : u ∈ visited
    · exact clear u ⟨seen, fits⟩ below
    · obtain ⟨top, taken, passes, above⟩ := not_outside inside seen
      exact clear top ⟨taken, passes⟩ (mem_tail_trans above below)
  · intro clear u taken
    exact clear u (part.subset taken.1) taken.2

end FormView

namespace Document

open FormView (HeadTest)

variable {d : Document} {v : FormView}

private theorem tops_sorted (neat : d.root.Neat) (member : v ∈ d.view.subtree) :
    (Form.forest v.tops).Pairwise fun f g => f.span.first < g.span.first := by
  rcases FormView.mem_subtree.mp member with rfl | ⟨f, inside, rfl⟩
  · have whole : Form.forest d.view.tops = d.root.nested := d.root.children_nested
    rw [whole]
    exact neat.nested_sorted
  · have family : Form.forest (d.view.child f).tops = f :: f.nested := List.append_nil _
    rw [family]
    refine List.pairwise_cons.mpr ⟨?_, (neat.nested inside).nested_sorted⟩
    intro g within
    exact neat.first_lt inside within

/-- The search by heads from any form of the document. The forms it goes through are listed in the
order in which they start, and every head among them is asked for once; what is not deep leaves out
the forms inside one that is found. -/
structure FindsByHead (d : Document) : Prop where
  order : ∀ v ∈ d.view.subtree,
    v.searched.Pairwise fun u w => u.form.span.first < w.form.span.first
  deep : ∀ v ∈ d.view.subtree, ∀ accepts : HeadTest,
    (v.searchWith accepts true).Asks accepts v.searched
  shallow : ∀ v ∈ d.view.subtree, ∀ accepts : HeadTest,
    ∃ visited : List FormView, visited.Sublist v.searched ∧
      (v.searchWith accepts false).Asks accepts visited ∧
      ∀ w ∈ v.searched, w ∈ visited ↔
        ∀ u ∈ (v.searchWith accepts false).forms, w ∉ u.subtree.tail
  deepPlain : ∀ v ∈ d.view.subtree, ∀ accepts : Atom → Bool,
    (v.search accepts true).heads.toList = v.searched.filterMap FormView.head? ∧
      (v.search accepts true).forms.toList = v.searched.filter (·.head?.any accepts)
  shallowPlain : ∀ v ∈ d.view.subtree, ∀ accepts : Atom → Bool,
    ∃ visited : List FormView, visited.Sublist v.searched ∧
      (v.search accepts false).heads.toList = visited.filterMap FormView.head? ∧
      (v.search accepts false).forms.toList = visited.filter (·.head?.any accepts) ∧
      ∀ w ∈ v.searched, w ∈ visited ↔
        ∀ u ∈ v.searched, u.head?.any accepts = true → w ∉ u.subtree.tail

theorem findsByHead (neat : d.root.Neat) : d.FindsByHead := by
  have distinct (v : FormView) (member : v ∈ d.view.subtree) : (Form.forest v.tops).Nodup :=
    (tops_sorted neat member).imp fun {f g} before same =>
      Nat.ne_of_lt before (congrArg (fun h : Form => h.span.first) same)
  constructor
  · intro v member
    rw [FormView.searched_eq, List.pairwise_map]
    exact tops_sorted neat member
  · exact fun v _ accepts => v.searchWith_deep accepts
  · exact fun v member accepts => v.searchWith_shallow accepts (distinct v member)
  · intro v _ accepts
    obtain ⟨heads, forms⟩ := v.searchWith_deep fun _ => accepts
    rw [FormView.passing_plain] at forms
    exact ⟨heads, forms⟩
  · exact fun v member accepts => v.search_shallow accepts (distinct v member)

end Document

/-- The search by heads in any document, with its exported names marked or not. -/
theorem build_finds_by_head (native : String → Bool) (text : String) :
    (Document.build native text).FindsByHead ∧ (Document.parse native text).FindsByHead := by
  have neat := build_neat native text
  exact ⟨Document.findsByHead neat, Document.findsByHead neat⟩

end LispIndex
