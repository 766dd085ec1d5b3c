import LispIndex.Proofs.Holders

/-!
The parents of atoms and forms. Every piece of a document is an item of exactly one form, and the
search for it from any form around it finds that one. Climbing from parent to parent goes up one
level at a time and ends above the document, unless a single form is all that the document holds.
-/

namespace LispIndex

mutual

private theorem Node.forms_perm : (node : Node) →
    node.forms.Perm (node.form?.toList ++ node.forms.flatMap Form.children)
  | .atom index => .refl []
  | .form span items => by
    rw [forms, form?, List.flatMap_cons]
    exact (formsOf_perm items).cons ⟨span, items⟩

private theorem Node.formsOf_perm : (items : List Node) →
    (formsOf items).Perm (items.filterMap form? ++ (formsOf items).flatMap Form.children)
  | [] => .refl []
  | node :: rest => by
    have listed : (node :: rest).filterMap form? = node.form?.toList ++ rest.filterMap form? := by
      cases node <;> rfl
    rw [formsOf, listed, List.flatMap_append]
    refine ((forms_perm node).append (formsOf_perm rest)).trans ?_
    rw [List.append_assoc, List.append_assoc]
    exact (List.perm_append_comm_assoc _ _ _).append_left _

end

namespace Form

variable {f g h c : Form}

private theorem nested_perm (f : Form) : f.nested.Perm ((f :: f.nested).flatMap children) :=
  Node.formsOf_perm f.items

private theorem weight_lt_of_nested {f g : Form} (inside : g ∈ f.nested) : g.weight < f.weight := by
  obtain ⟨c, direct, rfl | deeper⟩ := mem_nested.mp inside
  · exact weight_lt_of_mem direct
  · have shorter := weight_lt_of_mem direct
    exact (weight_lt_of_nested deeper).trans shorter
termination_by f.weight

namespace Neat

theorem nested_distinct (neat : f.Neat) : f.nested.Nodup := by
  have walk := f.leaves_perm.nodup_iff.mp neat.distinct
  have apart := (List.nodup_flatMap.mp (List.nodup_append.mp walk).2.1).2
  refine apart.imp_of_mem ?_
  rintro g h inside - disjoint rfl
  obtain ⟨-, i, rest, front⟩ := neat.inner g inside
  have glyph : i ∈ g.atoms := mem_atoms.mpr (by rw [front]; exact List.mem_cons_self)
  exact disjoint glyph glyph

private theorem form_holder_eq (neat : f.Neat) (left : g ∈ f :: f.nested)
    (right : h ∈ f :: f.nested) (first : c ∈ g.children) (second : c ∈ h.children) : g = h :=
  eq_of_shared (f.nested_perm.nodup_iff.mp neat.nested_distinct) left right first second

private theorem first_item (neat : f.Neat) (inside : g ∈ f.nested) :
    .atom g.span.first ∈ g.items := by
  obtain ⟨covers, i, rest, front⟩ := neat.inner g inside
  rw [front] at covers ⊢
  rw [covers.of_atom.1]
  exact List.mem_cons_self

private theorem eq_of_first (neat : f.Neat) (left : g ∈ f.nested) (right : h ∈ f.nested)
    (same : g.span.first = h.span.first) : g = h := by
  have glyph := neat.first_item left
  rw [same] at glyph
  exact holder_eq neat.distinct (List.mem_cons_of_mem _ left) (List.mem_cons_of_mem _ right) glyph
    (neat.first_item right)

/-- Items without atoms are no items at all. -/
theorem items_nil (neat : f.Neat) {items : List Node} {n : Nat} (part : items ⊆ f.items)
    (covers : Covers n n items) : items = [] := by
  cases items with
  | nil => rfl
  | cons node rest =>
    have none (i : Nat) : i ∉ Node.leavesOf (node :: rest) := by
      rw [covers.mem_leavesOf]
      omega
    cases node with
    | atom index => exact absurd List.mem_cons_self (none index)
    | form span inner =>
      have inside : ⟨span, inner⟩ ∈ f.nested := Node.mem_formsOf (part List.mem_cons_self)
      exact absurd (List.mem_append_left _ (neat.first_mem inside)) (none _)

theorem child_filled (neat : f.Neat) (direct : c ∈ f.children) : c.span.first < c.span.stop := by
  have start := neat.first_mem (child_nested direct)
  rw [leaves, (neat.child direct).covers.mem_leavesOf] at start
  exact start.2

private theorem span_of_single (neat : f.Neat) (single : f.items = [.form c.span c.items]) :
    c.span = f.span := by
  have direct : c ∈ f.children := mem_children.mpr (by rw [single]; exact List.mem_cons_self)
  have covers := neat.covers
  rw [single] at covers
  obtain ⟨middle, within, nothing⟩ := covers.of_form
  obtain ⟨first, rfl⟩ := within.unique (neat.child_filled direct) (neat.child direct).covers
  rw [Span.mk.injEq]
  exact ⟨first.symm, nothing.of_nil⟩

/-- A child that takes up the whole of a form is its only item. -/
theorem single_of_span (neat : f.Neat) (direct : c ∈ f.children) (same : c.span = f.span) :
    f.items = [.form c.span c.items] := by
  obtain ⟨front, back, split⟩ := List.append_of_mem (mem_children.mp direct)
  have covers := neat.covers
  rw [split] at covers
  obtain ⟨left, before, behind⟩ := covers.split
  obtain ⟨right, within, after⟩ := behind.of_form
  obtain ⟨rfl, rfl⟩ := within.unique (neat.child_filled direct) (neat.child direct).covers
  rw [same] at before after
  have none : front = [] := neat.items_nil (by simp [split]) before
  have nothing : back = [] := neat.items_nil (by simp [split]) after
  rw [split, none, nothing, List.nil_append]

end Neat

def isWrapper (f : Form) : Bool :=
  match f.items with
  | [.form _ _] => true
  | _ => false

theorem isWrapper_iff : f.isWrapper = true ↔ ∃ c : Form, f.items = [.form c.span c.items] := by
  rw [isWrapper]
  split
  next span items single => exact iff_of_true rfl ⟨⟨span, items⟩, single⟩
  next other =>
    refine iff_of_false Bool.false_ne_true ?_
    rintro ⟨c, single⟩
    exact other c.span c.items single

end Form

namespace FormView

variable {v w u c : FormView} {span : Span} {i : Nat} {f g : Form}

theorem mem_subtree : w ∈ v.subtree ↔ w = v ∨ ∃ f ∈ v.form.nested, w = v.child f := by
  rw [subtree_eq, List.mem_cons, List.mem_map]
  simp only [eq_comm]

theorem mem_tail_subtree : w ∈ v.subtree.tail ↔ ∃ f ∈ v.form.nested, w = v.child f := by
  rw [subtree_eq, List.tail_cons, List.mem_map]
  simp only [eq_comm]

private theorem nested_of_child (reached : w ∈ v.subtree) (direct : g ∈ w.form.children) :
    g ∈ v.form.nested := by
  have within := Form.child_nested direct
  rcases mem_subtree.mp reached with rfl | ⟨f, outer, rfl⟩
  · exact within
  · exact Form.nested_trans outer within

theorem child_mem (reached : w ∈ v.subtree) (direct : c ∈ w.children) : c ∈ v.subtree := by
  obtain ⟨g, child, rfl⟩ := List.mem_map.mp direct
  refine mem_subtree.mpr (.inr ⟨g, nested_of_child reached child, ?_⟩)
  rcases mem_subtree.mp reached with rfl | ⟨f, -, rfl⟩ <;> rfl

private theorem form_mem (reached : w ∈ v.subtree) : w.form ∈ v.form :: v.form.nested := by
  rcases mem_subtree.mp reached with rfl | ⟨f, inside, rfl⟩
  · exact List.mem_cons_self
  · exact List.mem_cons_of_mem _ inside

private theorem eq_of_form (left : u ∈ v.subtree) (right : w ∈ v.subtree) (same : u.form = w.form) :
    u = w := by
  have apart (f : Form) (inside : f ∈ v.form.nested) : v.form ≠ f := by
    intro equal
    exact absurd (congrArg Form.weight equal) (Nat.ne_of_gt (Form.weight_lt_of_nested inside))
  rcases mem_subtree.mp left with rfl | ⟨f, inside, rfl⟩
  · rcases mem_subtree.mp right with rfl | ⟨g, within, rfl⟩
    · rfl
    · exact absurd same (apart g within)
  · rcases mem_subtree.mp right with rfl | ⟨g, within, rfl⟩
    · exact absurd same.symm (apart f inside)
    · rw [show f = g from same]

private theorem subtree_distinct (neat : v.form.Neat) : v.subtree.Nodup := by
  have forms : (v.subtree.map form).Nodup := by
    rw [subtree_eq, List.map_cons, List.map_map]
    refine List.nodup_cons.mpr ⟨?_, ?_⟩
    · intro member
      obtain ⟨f, inside, same⟩ := List.mem_map.mp member
      have shorter := Form.weight_lt_of_nested inside
      exact absurd (congrArg Form.weight same) (Nat.ne_of_lt shorter)
    · rw [show form ∘ v.child = id from rfl, List.map_id]
      exact neat.nested_distinct
  exact forms.of_map

def SoleHolder (v : FormView) (node : Node) (w : FormView) : Prop :=
  w ∈ v.subtree ∧ node ∈ w.form.items ∧ ∀ u ∈ v.subtree, node ∈ u.form.items → u = w

private theorem soleHolder_atom (neat : v.form.Neat) (reached : w ∈ v.subtree)
    (held : .atom i ∈ w.form.items) : v.SoleHolder (.atom i) w := by
  refine ⟨reached, held, ?_⟩
  intro u other also
  apply eq_of_form other reached
  exact Form.holder_eq neat.distinct (form_mem other) (form_mem reached) also held

theorem soleHolder_form (neat : v.form.Neat) (reached : w ∈ v.subtree)
    (held : .form g.span g.items ∈ w.form.items) : v.SoleHolder (.form g.span g.items) w := by
  refine ⟨reached, held, ?_⟩
  intro u other also
  apply eq_of_form other reached
  exact neat.form_holder_eq (form_mem other) (form_mem reached) (Form.mem_children.mpr also)
    (Form.mem_children.mpr held)

/-- The search for a form leads to one that holds a form with that span. -/
theorem of_holderOf? (found : v.holderOf? span = some w) :
    w ∈ v.subtree ∧ ∃ f ∈ w.form.children, f.span = span := by
  fun_induction v.holderOf? span with
  | case1 => cases found
  | case2 v c first shorter same =>
    obtain rfl := Option.some.inj found
    obtain ⟨-, f, direct, rfl, -⟩ := child_of_find? first
    exact ⟨mem_subtree.mpr (.inl rfl), f, direct, same⟩
  | case3 v c first shorter apart ih =>
    obtain ⟨reached, held⟩ := ih found
    exact ⟨mem_subtree_child (child_of_find? first).1 reached, held⟩

private theorem of_parentOf? (found : v.parentOf? g = some w) :
    w ∈ v.subtree ∧ ∃ f ∈ w.form.children, f.span = g.span := by
  rw [parentOf?] at found
  split at found
  · cases found
  · exact of_holderOf? found

private theorem parentOf?_eq_some (neat : v.form.Neat) (reached : w ∈ v.subtree)
    (direct : g ∈ w.form.children) : v.parentOf? g = some w := by
  obtain ⟨u, other, found, held⟩ := parentOf?_spec neat (nested_of_child reached direct)
  rw [found, (soleHolder_form neat other held).2.2 w reached (Form.mem_children.mp direct)]

/-- A form is its own parent exactly if it holds nothing but one form. -/
theorem parentOf?_self (neat : v.form.Neat) :
    v.parentOf? v.form = if v.form.isWrapper then some v else none := by
  cases wraps : v.form.isWrapper with
  | true =>
    obtain ⟨f, single⟩ := Form.isWrapper_iff.mp wraps
    have direct : f ∈ v.form.children :=
      Form.mem_children.mpr (by rw [single]; exact List.mem_cons_self)
    have found := parentOf?_eq_some neat (mem_subtree.mpr (.inl rfl)) direct
    -- The search looks at spans only, and the document has that of its form.
    obtain ⟨-, i, rest, front⟩ := neat.inner f (Form.child_nested direct)
    rw [parentOf?, front, neat.span_of_single single] at found
    rw [parentOf?, single]
    exact found
  | false =>
    rw [if_neg Bool.false_ne_true, Option.eq_none_iff_forall_ne_some]
    intro w found
    obtain ⟨reached, f, direct, same⟩ := of_parentOf? found
    rcases mem_subtree.mp reached with rfl | ⟨g, inside, rfl⟩
    · have single := neat.single_of_span direct same
      rw [Form.isWrapper_iff.mpr ⟨f, single⟩] at wraps
      cases wraps
    · have behind := neat.first_lt inside (Form.child_nested direct)
      have start := Form.leaves_subset inside (neat.first_mem inside)
      rw [Form.leaves, neat.covers.mem_leavesOf, ← same] at start
      omega

end FormView

namespace Document

variable {d : Document} {v w c : FormView} {depth other steps : Nat}

/-- From every form of the document, the search for a parent finds the one form that has an atom or
a form as an item, and nothing for what is not inside the form it starts from. -/
structure FindsParents (d : Document) : Prop where
  distinct : d.view.subtree.Nodup
  atom : ∀ v ∈ d.view.subtree, ∀ i, v.form.span.first ≤ i → i < v.form.span.stop →
    ∃ w, v.parentOfAtom? i = some w ∧ v.SoleHolder (.atom i) w
  noAtom : ∀ v ∈ d.view.subtree, ∀ i, i < v.form.span.first ∨ v.form.span.stop ≤ i →
    v.parentOfAtom? i = none
  piece : ∀ v ∈ d.view.subtree, ∀ i a, d.atoms[i]? = some a →
    v.parentOfPiece? (.atom a) = v.parentOfAtom? i
  form : ∀ v ∈ d.view.subtree, ∀ c ∈ v.subtree.tail,
    ∃ w, v.parentOfPiece? (.form c) = some w ∧ v.SoleHolder (.form c.form.span c.form.items) w
  noForm : ∀ v ∈ d.view.subtree, ∀ c ∈ d.view.subtree.tail, c ∉ v.subtree.tail →
    v.parentOfPiece? (.form c) = none

theorem neat_of_mem (neat : d.root.Neat) (member : v ∈ d.view.subtree) : v.form.Neat := by
  rcases FormView.mem_subtree.mp member with rfl | ⟨f, inside, rfl⟩
  · exact neat
  · exact neat.nested inside

theorem nested_of_mem (member : v ∈ d.view.subtree) {f : Form} (inside : f ∈ v.form.nested) :
    f ∈ d.root.nested ∧ v.child f = d.view.child f := by
  rcases FormView.mem_subtree.mp member with rfl | ⟨g, outer, rfl⟩
  · exact ⟨inside, rfl⟩
  · exact ⟨Form.nested_trans outer inside, rfl⟩

theorem Sourced.findsParents (sourced : d.Sourced) (neat : d.root.Neat) : d.FindsParents where
  distinct := FormView.subtree_distinct neat
  atom v member i low high := by
    have part := neat_of_mem neat member
    have inside : i ∈ v.form.leaves := part.covers.mem_leavesOf.mpr ⟨low, high⟩
    obtain ⟨reached, held⟩ := FormView.holder_spec part inside
    exact ⟨_, FormView.parentOfAtom?_of_mem part inside, FormView.soleHolder_atom part reached held⟩
  noAtom v member i out := by
    have part := neat_of_mem neat member
    rw [Option.eq_none_iff_forall_ne_some]
    intro w found
    have inside := (FormView.of_parentOfAtom? part found).1
    rw [Form.leaves, part.covers.mem_leavesOf] at inside
    omega
  piece v member i a found := by
    rw [FormView.parentOfPiece?, sourced.indexed i a found]
  form v member c within := by
    have part := neat_of_mem neat member
    obtain ⟨f, inside, rfl⟩ := FormView.mem_tail_subtree.mp within
    obtain ⟨w, reached, found, held⟩ := FormView.parentOf?_spec part inside
    exact ⟨w, found, FormView.soleHolder_form part reached held⟩
  noForm v member c nested apart := by
    obtain ⟨g, inside, rfl⟩ := FormView.mem_tail_subtree.mp nested
    rw [FormView.parentOfPiece?, Option.eq_none_iff_forall_ne_some]
    intro w found
    -- The search may lead to a form with the same span, which is the same form then.
    obtain ⟨reached, f, direct, same⟩ := FormView.of_parentOf? found
    have within := FormView.nested_of_child reached direct
    obtain ⟨also, view⟩ := nested_of_mem member within
    obtain rfl := neat.eq_of_first also inside (congrArg Span.first same)
    exact apart (FormView.mem_tail_subtree.mpr ⟨f, within, view.symm⟩)

end Document

/-- The search for parents is exact in every document, with its exported names marked or not. -/
theorem build_finds_parents (native : String → Bool) (text : String) :
    (Document.build native text).FindsParents ∧ (Document.parse native text).FindsParents := by
  have neat := build_neat native text
  constructor
  · exact (build_sourced native text).findsParents neat
  · exact (parse_sourced native text).findsParents neat

namespace Document

variable {d : Document} {v w c : FormView} {depth other steps : Nat}

def climb (d : Document) : Nat → FormView → Option FormView
  | 0, v => some v
  | steps + 1, v => (d.view.parentOfPiece? (.form v)).bind (d.climb steps)

inductive AtDepth (d : Document) : Nat → FormView → Prop
  | document : AtDepth d 0 d.view
  | child (depth : Nat) (v c : FormView) (outer : AtDepth d depth v) (direct : c ∈ v.children) :
      AtDepth d (depth + 1) c

/-- Climbing from a form reaches the document in as many steps as the form is deep. One more step
leads nowhere, unless the document holds nothing but one form: then it is taken for its own parent
and climbing goes on for ever. -/
structure Climbs (d : Document) : Prop where
  depth : ∀ v ∈ d.view.subtree, ∃! depth, d.AtDepth depth v
  inside : ∀ depth v, d.AtDepth depth v → ∀ steps ≤ depth,
    ∃ w, d.climb steps v = some w ∧ d.AtDepth (depth - steps) w
  above : ∀ depth v, d.AtDepth depth v → ∀ steps > depth,
    d.climb steps v = if d.root.isWrapper then some d.view else none

private theorem climb_add (d : Document) (first second : Nat) (v : FormView) :
    d.climb (first + second) v = (d.climb first v).bind (d.climb second) := by
  induction first generalizing v with
  | zero => rw [Nat.zero_add, climb, Option.bind_some]
  | succ first ih =>
    rw [Nat.succ_add, climb, climb, Option.bind_assoc]
    apply congrArg
    funext w
    exact ih w

namespace AtDepth

private theorem mem (here : d.AtDepth depth v) : v ∈ d.view.subtree := by
  induction here with
  | document => exact FormView.mem_subtree.mpr (.inl rfl)
  | child depth v c outer direct ih => exact FormView.child_mem ih direct

private theorem parent (neat : d.root.Neat) (here : d.AtDepth depth v) (direct : c ∈ v.children) :
    d.view.parentOfPiece? (.form c) = some v := by
  obtain ⟨f, child, rfl⟩ := List.mem_map.mp direct
  exact FormView.parentOf?_eq_some neat here.mem child

private theorem climb (neat : d.root.Neat) (here : d.AtDepth depth v) (bound : steps ≤ depth) :
    ∃ w, d.climb steps v = some w ∧ d.AtDepth (depth - steps) w := by
  induction here generalizing steps with
  | document =>
    obtain rfl := Nat.le_zero.mp bound
    exact ⟨d.view, rfl, .document⟩
  | child depth v c outer direct ih =>
    cases steps with
    | zero => exact ⟨c, rfl, .child depth v c outer direct⟩
    | succ steps =>
      obtain ⟨w, reached, level⟩ := ih (Nat.le_of_succ_le_succ bound)
      refine ⟨w, ?_, ?_⟩
      · rw [Document.climb, outer.parent neat direct, Option.bind_some, reached]
      · rwa [Nat.succ_sub_succ]

theorem unique (neat : d.root.Neat) (first : d.AtDepth depth v) (second : d.AtDepth other v) :
    depth = other := by
  have noParent (w : FormView) : d.view ∉ w.children := by
    intro member
    obtain ⟨f, -, same⟩ := List.mem_map.mp member
    cases congrArg FormView.isRoot same
  induction first generalizing other with
  | document =>
    cases second with
    | document => rfl
    | child level w _ around held => exact absurd held (noParent w)
  | child depth v c outer direct ih =>
    cases second with
    | document => exact absurd direct (noParent v)
    | child level w _ around held =>
      have same := (outer.parent neat direct).symm.trans (around.parent neat held)
      obtain rfl := Option.some.inj same
      rw [ih around]

private theorem exists_inside {depth : Nat} {v : FormView} (here : d.AtDepth depth v) {f : Form}
    (inside : f ∈ v.form.nested) : ∃ level, d.AtDepth level (v.child f) := by
  obtain ⟨c, direct, within⟩ := Form.mem_nested.mp inside
  have next := AtDepth.child depth v (v.child c) here (List.mem_map_of_mem direct)
  rcases within with rfl | deeper
  · exact ⟨depth + 1, next⟩
  · have shorter := Form.weight_lt_of_mem direct
    exact next.exists_inside deeper
termination_by v.form.weight

private theorem exists_of_mem (member : v ∈ d.view.subtree) : ∃ depth, d.AtDepth depth v := by
  rcases FormView.mem_subtree.mp member with rfl | ⟨f, inside, rfl⟩
  · exact ⟨0, .document⟩
  · exact document.exists_inside inside

end AtDepth

private theorem parentOfPiece?_view (neat : d.root.Neat) : d.view.parentOfPiece? (.form d.view) =
    if d.root.isWrapper then some d.view else none :=
  FormView.parentOf?_self neat

private theorem climb_view (neat : d.root.Neat) (steps : Nat) :
    d.climb (steps + 1) d.view = if d.root.isWrapper then some d.view else none := by
  have self := parentOfPiece?_view neat
  cases wraps : d.root.isWrapper with
  | true =>
    rw [wraps, if_pos rfl] at self
    induction steps with
    | zero => rw [climb, self, if_pos rfl, Option.bind_some, climb]
    | succ steps ih => rw [climb, self, Option.bind_some, ih]
  | false => rw [climb, self, wraps, if_neg Bool.false_ne_true, Option.bind_none]

theorem climbs (neat : d.root.Neat) : d.Climbs where
  depth v member := by
    obtain ⟨depth, here⟩ := AtDepth.exists_of_mem member
    exact ⟨depth, here, fun other also => also.unique neat here⟩
  inside depth v here steps bound := here.climb neat bound
  above depth v here steps beyond := by
    obtain ⟨w, reached, top⟩ := here.climb neat (Nat.le_refl depth)
    rw [Nat.sub_self] at top
    obtain rfl : w = d.view := by cases top; rfl
    obtain ⟨more, rfl⟩ := Nat.exists_eq_add_of_lt beyond
    rw [Nat.add_assoc, climb_add, reached, Option.bind_some, climb_view neat]

end Document

/-- Climbing from parent to parent in any document. -/
theorem build_climbs (native : String → Bool) (text : String) :
    (Document.build native text).Climbs ∧ (Document.parse native text).Climbs := by
  have neat := build_neat native text
  exact ⟨Document.climbs neat, Document.climbs neat⟩

/-- A document that is one form is taken for its own parent, so that climbing never ends. -/
theorem climb_never_ends :
    let d := Document.build (fun _ => false) "(a)"
    d.AtDepth 0 d.view ∧ d.view.parentOfPiece? (.form d.view) = some d.view ∧
      ∀ steps, d.climb steps d.view ≠ none := by
  intro d
  have neat : d.root.Neat := build_neat (fun _ => false) "(a)"
  have wraps : d.root.isWrapper = true := by decide +kernel
  refine ⟨.document, ?_, ?_⟩
  · rw [d.parentOfPiece?_view neat, wraps, if_pos rfl]
  · intro steps
    cases steps with
    | zero => exact Option.some_ne_none _
    | succ steps =>
      rw [d.climb_view neat, wraps]
      exact Option.some_ne_none _

end LispIndex
