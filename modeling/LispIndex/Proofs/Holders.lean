import LispIndex.Form.Search
import LispIndex.Proofs.FormShape
import LispIndex.Proofs.SourceOrder

/-!
The forms that hold the atoms and forms of a document. Following the children whose spans hold an
atom leads to the form that has it as an item, and likewise for a form.
-/

namespace LispIndex

mutual

private theorem Node.forms_trans : (node : Node) → ∀ g ∈ node.forms, ∀ h ∈ g.nested, h ∈ node.forms
  | .atom _ => nofun
  | .form span items => by
    intro g member h inside
    rw [forms] at member ⊢
    rcases List.mem_cons.mp member with rfl | deeper
    · exact List.mem_cons_of_mem _ inside
    · exact List.mem_cons_of_mem _ (formsOf_trans items g deeper h inside)

private theorem Node.formsOf_trans : (items : List Node) → ∀ g ∈ formsOf items, ∀ h ∈ g.nested,
    h ∈ formsOf items
  | [] => nofun
  | node :: rest => by
    intro g member h inside
    rw [formsOf] at member ⊢
    rcases List.mem_append.mp member with here | later
    · exact List.mem_append_left _ (forms_trans node g here h inside)
    · exact List.mem_append_right _ (formsOf_trans rest g later h inside)

end

theorem Node.mem_leavesOf {items : List Node} {i : Nat} : i ∈ leavesOf items ↔
    .atom i ∈ items ∨ ∃ span inner, .form span inner ∈ items ∧ i ∈ leavesOf inner := by
  induction items with
  | nil => simp [leavesOf]
  | cons node rest ih =>
    rw [leavesOf, List.mem_append, ih]
    cases node with
    | atom index => simp [leaves, or_assoc]
    | form span inner =>
      simp only [leaves, List.mem_cons, reduceCtorEq, false_or, Node.form.injEq]
      constructor
      · rintro (here | direct | ⟨other, items, member, inside⟩)
        · exact .inr ⟨span, inner, .inl ⟨rfl, rfl⟩, here⟩
        · exact .inl direct
        · exact .inr ⟨other, items, .inr member, inside⟩
      · rintro (direct | ⟨other, items, ⟨rfl, rfl⟩ | member, inside⟩)
        · exact .inr (.inl direct)
        · exact .inl inside
        · exact .inr (.inr ⟨other, items, member, inside⟩)

theorem Covers.mem_leavesOf {first stop i : Nat} {items : List Node}
    (covers : Covers first stop items) : i ∈ Node.leavesOf items ↔ first ≤ i ∧ i < stop := by
  have bound := covers.1
  rw [covers.2, Span.indices, List.mem_range'_1]
  dsimp only
  omega

namespace Form

variable {f g h c other : Form} {i : Nat}

theorem mem_children : c ∈ f.children ↔ .form c.span c.items ∈ f.items := by
  rw [children, List.mem_filterMap]
  constructor
  · rintro ⟨node, member, found⟩
    cases node with
    | atom index => cases found
    | form span items =>
      obtain rfl := Option.some.inj found
      exact member
  · intro member
    exact ⟨_, member, rfl⟩

theorem mem_nested : g ∈ f.nested ↔ ∃ c ∈ f.children, g = c ∨ g ∈ c.nested := by
  rw [← children_nested, List.mem_flatMap]
  simp only [List.mem_cons]

theorem child_nested (direct : c ∈ f.children) : c ∈ f.nested :=
  mem_nested.mpr ⟨c, direct, .inl rfl⟩

theorem nested_trans (inside : g ∈ f.nested) (within : h ∈ g.nested) : h ∈ f.nested :=
  Node.formsOf_trans f.items g inside h within

theorem mem_leaves : i ∈ f.leaves ↔ .atom i ∈ f.items ∨ ∃ c ∈ f.children, i ∈ c.leaves := by
  rw [leaves, Node.mem_leavesOf]
  apply or_congr_right
  constructor
  · rintro ⟨span, inner, member, inside⟩
    exact ⟨⟨span, inner⟩, mem_children.mpr member, inside⟩
  · rintro ⟨c, member, inside⟩
    exact ⟨c.span, c.items, mem_children.mp member, inside⟩

theorem leaves_subset (inside : g ∈ f.nested) : g.leaves ⊆ f.leaves := by
  intro i member
  rw [f.leaves_perm.mem_iff]
  refine List.mem_append_right _ (List.mem_flatMap.mpr ?_)
  rcases List.mem_append.mp (g.leaves_perm.mem_iff.mp member) with direct | deeper
  · exact ⟨g, inside, direct⟩
  · obtain ⟨h, within, held⟩ := List.mem_flatMap.mp deeper
    exact ⟨h, nested_trans inside within, held⟩

/-- No two children have an atom in common. -/
theorem child_unique (distinct : f.leaves.Nodup) (first : c ∈ f.children)
    (second : other ∈ f.children) (left : i ∈ c.leaves) (right : i ∈ other.leaves) : c = other := by
  obtain ⟨span, items⟩ := f
  rw [mem_children] at first second
  induction items with
  | nil => cases first
  | cons node rest ih =>
    obtain ⟨-, later, apart⟩ := List.nodup_append.mp distinct
    -- The leaves of a child among `rest` are none of the leaves of `node`.
    have outside (d : Form) (member : .form d.span d.items ∈ rest) (inside : i ∈ d.leaves) :
        i ∉ node.leaves := fun here => apart i here i
      (Node.mem_leavesOf.mpr (.inr ⟨d.span, d.items, member, inside⟩)) rfl
    rcases List.mem_cons.mp first with here | behind
    · rcases List.mem_cons.mp second with there | after
      · obtain ⟨same, equal⟩ := Node.form.inj (here.trans there.symm)
        obtain ⟨span, items⟩ := c
        obtain ⟨otherSpan, others⟩ := other
        rw [show span = otherSpan from same, show items = others from equal]
      · exact absurd (here ▸ left : i ∈ node.leaves) (outside other after right)
    · rcases List.mem_cons.mp second with there | after
      · exact absurd (there ▸ right : i ∈ node.leaves) (outside c behind left)
      · exact ih later behind after

/-- The atoms of a form and of every form inside it are those of its span, and those inside it start
with an atom. -/
structure Neat (f : Form) : Prop where
  covers : Covers f.span.first f.span.stop f.items
  inner : ∀ g ∈ f.nested, Covers g.span.first g.span.stop g.items ∧
    ∃ i rest, g.items = .atom i :: rest

namespace Neat

theorem nested (neat : f.Neat) (inside : g ∈ f.nested) : g.Neat :=
  ⟨(neat.inner g inside).1, fun h within => neat.inner h (nested_trans inside within)⟩

theorem child (neat : f.Neat) (member : c ∈ f.children) : c.Neat :=
  neat.nested (child_nested member)

theorem holds_iff (neat : f.Neat) : f.span.holds i = true ↔ i ∈ f.leaves := by
  rw [leaves, neat.covers.mem_leavesOf, Span.holds, Bool.and_eq_true, decide_eq_true_eq,
    decide_eq_true_eq]

theorem distinct (neat : f.Neat) : f.leaves.Nodup := by
  rw [leaves, neat.covers.2]
  exact List.nodup_range'

theorem first_mem (neat : f.Neat) (inside : g ∈ f.nested) : g.span.first ∈ g.leaves := by
  obtain ⟨covers, i, rest, front⟩ := neat.inner g inside
  have filled : i ∈ g.leaves := mem_leaves.mpr (.inl (by simp [front]))
  rw [leaves, covers.mem_leavesOf] at filled ⊢
  omega

/-- A form inside another one starts behind its first glyph. -/
theorem first_lt (neat : f.Neat) (inside : g ∈ f.nested) (within : h ∈ g.nested) :
    g.span.first < h.span.first := by
  obtain ⟨covers, i, rest, front⟩ := neat.inner g inside
  rw [front] at covers
  obtain ⟨-, later⟩ := covers.of_atom
  have behind : h ∈ Node.formsOf rest := by
    rw [Form.nested, front] at within
    exact within
  have member := leaves_subset (f := ⟨g.span, rest⟩) behind
    (neat.first_mem (nested_trans inside within))
  rw [leaves, later.mem_leavesOf] at member
  omega

theorem child_holds (neat : f.Neat) (direct : c ∈ f.children) (within : g = c ∨ g ∈ c.nested) :
    c.span.holds g.span.first = true := by
  have start := neat.first_mem (mem_nested.mpr ⟨c, direct, within⟩)
  rw [(neat.child direct).holds_iff]
  rcases within with rfl | deeper
  · exact start
  · exact leaves_subset deeper start

/-- The child that holds the first glyph of a form is that form or has it inside. -/
theorem of_child_holds (neat : f.Neat) (inside : g ∈ f.nested) (direct : c ∈ f.children)
    (holds : c.span.holds g.span.first = true) : g = c ∨ g ∈ c.nested := by
  obtain ⟨other, member, within⟩ := mem_nested.mp inside
  have there := neat.child_holds member within
  rw [(neat.child member).holds_iff] at there
  rw [(neat.child direct).holds_iff] at holds
  obtain rfl := child_unique neat.distinct direct member holds there
  exact within

end Neat

end Form

namespace FormView

variable {v w c : FormView} {i : Nat} {g : Form}

theorem mem_subtree_child (member : c ∈ v.children) (inside : w ∈ c.subtree) : w ∈ v.subtree := by
  obtain ⟨f, direct, rfl⟩ := List.mem_map.mp member
  have nested := Form.child_nested direct
  rw [subtree_eq] at inside ⊢
  refine List.mem_cons_of_mem _ (List.mem_map.mpr ?_)
  rcases List.mem_cons.mp inside with rfl | deeper
  · exact ⟨f, nested, rfl⟩
  · obtain ⟨h, within, rfl⟩ := List.mem_map.mp deeper
    exact ⟨h, Form.nested_trans nested within, rfl⟩

theorem child_of_find? (found : v.children.find? (·.form.span.holds i) = some c) :
    c ∈ v.children ∧ ∃ f ∈ v.form.children, c = v.child f ∧ f.span.holds i = true := by
  have member := List.mem_of_find?_eq_some found
  obtain ⟨f, direct, rfl⟩ := List.mem_map.mp member
  have holds := List.find?_some (p := fun c : FormView => c.form.span.holds i) found
  exact ⟨member, f, direct, rfl, holds⟩

/-- Following the children that hold an atom leads to the form that has it as an item. -/
theorem holder_spec (neat : v.form.Neat) (inside : i ∈ v.form.leaves) :
    v.holder i ∈ v.subtree ∧ .atom i ∈ (v.holder i).form.items := by
  fun_induction v.holder i with
  | case1 v none =>
    refine ⟨by rw [subtree_eq]; exact List.mem_cons_self, ?_⟩
    rcases Form.mem_leaves.mp inside with direct | ⟨c, member, deeper⟩
    · exact direct
    · have missed := List.find?_eq_none.mp none (v.child c) (List.mem_map_of_mem member)
      exact absurd ((neat.child member).holds_iff.mpr deeper) missed
  | case2 v c found shorter ih =>
    obtain ⟨member, f, direct, rfl, holds⟩ := child_of_find? found
    have inner := neat.child direct
    obtain ⟨reached, held⟩ := ih inner (inner.holds_iff.mp holds)
    exact ⟨mem_subtree_child member reached, held⟩

theorem parentOfAtom?_of_mem (neat : v.form.Neat) (inside : i ∈ v.form.leaves) :
    v.parentOfAtom? i = some (v.holder i) := by
  rw [parentOfAtom?, if_pos (neat.holds_iff.mpr inside)]

theorem of_parentOfAtom? (neat : v.form.Neat) (found : v.parentOfAtom? i = some w) :
    i ∈ v.form.leaves ∧ w ∈ v.subtree ∧ .atom i ∈ w.form.items := by
  rw [parentOfAtom?] at found
  split at found
  next holds =>
    obtain rfl := Option.some.inj found
    have inside := neat.holds_iff.mp holds
    exact ⟨inside, holder_spec neat inside⟩
  next => cases found

theorem holderOf?_spec (neat : v.form.Neat) (inside : g ∈ v.form.nested) :
    ∃ w ∈ v.subtree, v.holderOf? g.span = some w ∧ .form g.span g.items ∈ w.form.items := by
  fun_induction v.holderOf? g.span with
  | case1 v none =>
    obtain ⟨f, direct, within⟩ := Form.mem_nested.mp inside
    have missed := List.find?_eq_none.mp none (v.child f) (List.mem_map_of_mem direct)
    exact absurd (neat.child_holds direct within) missed
  | case2 v c found shorter same =>
    obtain ⟨-, f, direct, rfl, holds⟩ := child_of_find? found
    refine ⟨v, by rw [subtree_eq]; exact List.mem_cons_self, rfl, ?_⟩
    rcases neat.of_child_holds inside direct holds with rfl | deeper
    · exact Form.mem_children.mp direct
    · have before := neat.first_lt (Form.child_nested direct) deeper
      exact absurd (congrArg Span.first same) (Nat.ne_of_lt before)
  | case3 v c found shorter apart ih =>
    obtain ⟨member, f, direct, rfl, holds⟩ := child_of_find? found
    rcases neat.of_child_holds inside direct holds with rfl | deeper
    · exact absurd rfl apart
    · obtain ⟨w, reached, result, held⟩ := ih (neat.child direct) deeper
      exact ⟨w, mem_subtree_child member reached, result, held⟩

theorem parentOf?_spec (neat : v.form.Neat) (inside : g ∈ v.form.nested) :
    ∃ w ∈ v.subtree, v.parentOf? g = some w ∧ .form g.span g.items ∈ w.form.items := by
  obtain ⟨w, reached, found, held⟩ := holderOf?_spec neat inside
  obtain ⟨-, i, rest, front⟩ := neat.inner g inside
  have holds : v.form.span.holds g.span.first = true := by
    rw [neat.holds_iff]
    exact Form.leaves_subset inside (neat.first_mem inside)
  refine ⟨w, reached, ?_, held⟩
  rw [parentOf?, front, holds]
  exact found

end FormView

theorem build_neat (native : String → Bool) (text : String) :
    (Document.build native text).root.Neat where
  covers := (build_sourced native text).whole ▸ (build_sourced native text).covers
  inner g nested := by
    refine ⟨((build_sourced native text).forms g nested).1, ?_⟩
    obtain ⟨next, glyphs, body, opening, split, -⟩ :=
      Nesting.made_body ((build_rest native text).made g nested)
    rw [split]
    cases opening with
    | plain left => exact ⟨_, _, rfl⟩
    | quoted quoted => exact ⟨_, _, rfl⟩

end LispIndex
