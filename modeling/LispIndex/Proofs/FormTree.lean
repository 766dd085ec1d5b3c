import LispIndex.Form.View
import LispIndex.Proofs.FormGrammar
import LispIndex.Proofs.Placement
import Mathlib.Data.List.Nodup
import Mathlib.Data.List.Pairwise

/-!
The tree of forms and the flat atoms. Walking a form lists the indices of its atoms, and the walk of
every form of a document is the block of indices that its span records.
-/

namespace LispIndex

def Span.indices (s : Span) : List Nat :=
  List.range' s.first (s.stop - s.first)

theorem Span.indices_append {first middle stop : Nat} (low : first ≤ middle)
    (high : middle ≤ stop) :
    indices ⟨first, middle⟩ ++ indices ⟨middle, stop⟩ = indices ⟨first, stop⟩ := by
  have joined := @List.range'_append first (middle - first) (stop - middle) 1
  have total : middle - first + (stop - middle) = stop - first := by omega
  rwa [Nat.one_mul, Nat.add_sub_cancel' low, total] at joined

namespace Node

mutual

def leaves : Node → List Nat
  | .atom index => [index]
  | .form _ items => leavesOf items

def leavesOf : List Node → List Nat
  | [] => []
  | node :: rest => node.leaves ++ leavesOf rest

end

mutual

def forms : Node → List Form
  | .atom _ => []
  | .form span items => ⟨span, items⟩ :: formsOf items

def formsOf : List Node → List Form
  | [] => []
  | node :: rest => node.forms ++ formsOf rest

end

@[simp] theorem leavesOf_append (left right : List Node) :
    leavesOf (left ++ right) = leavesOf left ++ leavesOf right := by
  induction left with
  | nil => rfl
  | cons node rest ih => rw [List.cons_append, leavesOf, leavesOf, ih, List.append_assoc]

@[simp] theorem formsOf_append (left right : List Node) :
    formsOf (left ++ right) = formsOf left ++ formsOf right := by
  induction left with
  | nil => rfl
  | cons node rest ih => rw [List.cons_append, formsOf, formsOf, ih, List.append_assoc]

theorem mem_formsOf {items inner : List Node} {span : Span} (member : .form span inner ∈ items) :
    ⟨span, inner⟩ ∈ formsOf items := by
  induction items with
  | nil => cases member
  | cons node rest ih =>
    rw [formsOf]
    cases member with
    | head => exact List.mem_append_left _ (List.mem_cons_self ..)
    | tail _ later => exact List.mem_append_right _ (ih later)

end Node

namespace Form

def leaves (f : Form) : List Nat :=
  Node.leavesOf f.items

def nested (f : Form) : List Form :=
  Node.formsOf f.items

theorem children_nested (f : Form) :
    f.children.flatMap (fun child => child :: child.nested) = f.nested := by
  obtain ⟨span, items⟩ := f
  simp only [children, nested]
  induction items with
  | nil => rfl
  | cons node rest ih =>
    cases node with
    | atom index => exact ih
    | form span items =>
      rw [List.filterMap_cons_some (show (Node.form span items).form? = some ⟨span, items⟩ from rfl),
        List.flatMap_cons, ih]
      rfl

private theorem preorder_eq (found : Array Form) (forms : List Form) :
    preorder found forms = found.toList ++ forms.flatMap (fun form => form :: form.nested) := by
  fun_induction preorder found forms with
  | case1 found => simp
  | case2 found form rest ih => simp [ih, children_nested]

end Form

def Form.atoms (f : Form) : List Nat :=
  f.items.filterMap Node.index?

theorem Form.mem_atoms {f : Form} {i : Nat} : i ∈ f.atoms ↔ .atom i ∈ f.items := by
  rw [atoms, List.mem_filterMap]
  constructor
  · rintro ⟨node, member, found⟩
    cases node with
    | atom index =>
      obtain rfl := Option.some.inj found
      exact member
    | form span items => cases found
  · intro member
    exact ⟨_, member, rfl⟩

mutual

private theorem Node.leaves_perm : (node : Node) →
    node.leaves.Perm (node.index?.toList ++ node.forms.flatMap Form.atoms)
  | .atom index => by simp [leaves, index?, forms]
  | .form span items => by
    rw [leaves, index?, forms, List.flatMap_cons]
    exact leavesOf_perm items

private theorem Node.leavesOf_perm : (items : List Node) →
    (leavesOf items).Perm (items.filterMap index? ++ (formsOf items).flatMap Form.atoms)
  | [] => by simp [leavesOf, formsOf]
  | node :: rest => by
    have listed : (node :: rest).filterMap index? = node.index?.toList ++ rest.filterMap index? := by
      cases node <;> rfl
    rw [leavesOf, formsOf, listed, List.flatMap_append]
    -- The walk goes through each form in its turn, while direct atoms come first on the right.
    refine ((leaves_perm node).append (leavesOf_perm rest)).trans ?_
    rw [List.append_assoc, List.append_assoc]
    exact (List.perm_append_comm_assoc _ _ _).append_left _

end

namespace Form

theorem leaves_perm (f : Form) : f.leaves.Perm (f.atoms ++ f.nested.flatMap atoms) :=
  Node.leavesOf_perm f.items

theorem exists_holder {f : Form} {i : Nat} (member : i ∈ f.leaves) :
    .atom i ∈ f.items ∨ ∃ g ∈ f.nested, .atom i ∈ g.items := by
  rcases List.mem_append.mp (f.leaves_perm.mem_iff.mp member) with direct | deeper
  · exact .inl (mem_atoms.mp direct)
  · obtain ⟨g, nested, held⟩ := List.mem_flatMap.mp deeper
    exact .inr ⟨g, nested, mem_atoms.mp held⟩

theorem holder_unique {f g h : Form} {i n m : Nat} (distinct : f.leaves.Nodup)
    (first : f.nested[n]? = some g) (second : f.nested[m]? = some h) (left : .atom i ∈ g.items)
    (right : .atom i ∈ h.items) : n = m := by
  have nodup := (List.nodup_append.mp (f.leaves_perm.nodup_iff.mp distinct)).2.1
  have apart := List.pairwise_iff_getElem.mp (List.nodup_flatMap.mp nodup).2
  obtain ⟨inside, rfl⟩ := List.getElem?_eq_some_iff.mp first
  obtain ⟨within, rfl⟩ := List.getElem?_eq_some_iff.mp second
  rcases Nat.lt_trichotomy n m with below | same | above
  · exact (apart n m inside within below (mem_atoms.mpr left) (mem_atoms.mpr right)).elim
  · exact same
  · exact (apart m n within inside above (mem_atoms.mpr right) (mem_atoms.mpr left)).elim

theorem eq_of_shared {α : Type} {forms : List Form} {parts : Form → List α} {g h : Form} {x : α}
    (distinct : (forms.flatMap parts).Nodup) (left : g ∈ forms) (right : h ∈ forms)
    (first : x ∈ parts g) (second : x ∈ parts h) : g = h := by
  have : Std.Symm (Function.onFun List.Disjoint parts) := ⟨fun _ _ apart _ a b => apart b a⟩
  by_contra other
  exact (List.nodup_flatMap.mp distinct).2.forall left right other first second

theorem holder_eq {f g h : Form} {i : Nat} (distinct : f.leaves.Nodup) (left : g ∈ f :: f.nested)
    (right : h ∈ f :: f.nested) (first : .atom i ∈ g.items) (second : .atom i ∈ h.items) :
    g = h := by
  have apart : ((f :: f.nested).flatMap atoms).Nodup := f.leaves_perm.nodup_iff.mp distinct
  exact eq_of_shared apart left right (mem_atoms.mpr first) (mem_atoms.mpr second)

end Form

theorem FormView.subtree_eq (v : FormView) : v.subtree = v :: v.form.nested.map v.child := by
  rw [subtree, Form.preorder_eq, Form.children_nested]
  rfl

/-- The atoms of some items are the indices from `first` up to `stop`, in their order. -/
def Covers (first stop : Nat) (items : List Node) : Prop :=
  first ≤ stop ∧ Node.leavesOf items = Span.indices ⟨first, stop⟩

namespace Covers

variable {first middle stop : Nat} {items more : List Node}

theorem none (first : Nat) : Covers first first [] :=
  ⟨Nat.le_refl _, by simp [Node.leavesOf, Span.indices]⟩

theorem atom (i : Nat) : Covers i (i + 1) [.atom i] :=
  ⟨Nat.le_succ i, by simp [Node.leavesOf, Node.leaves, Span.indices]⟩

theorem form (span : Span) (inside : Covers first stop items) :
    Covers first stop [.form span items] :=
  ⟨inside.1, by rw [← inside.2]; exact List.append_nil _⟩

theorem append (left : Covers first middle items) (right : Covers middle stop more) :
    Covers first stop (items ++ more) := by
  refine ⟨Nat.le_trans left.1 right.1, ?_⟩
  rw [Node.leavesOf_append, left.2, right.2, Span.indices_append left.1 right.1]

end Covers

namespace Nesting

variable {lexemes : List Lexeme} {top : Bool} {first next stop : Nat} {items glyphs inner : List Node}

theorem kind?_lt {kind : TokenKind} {i : Nat} (found : kind? lexemes i = some kind) :
    i < lexemes.length := by
  obtain ⟨lexeme, here, -⟩ := Option.map_eq_some_iff.mp found
  exact (List.getElem?_eq_some_iff.mp here).1

theorem Opening.covers (opening : Opening lexemes first next glyphs) : Covers first next glyphs := by
  cases opening with
  | plain left => exact .atom first
  | quoted quoted => exact (Covers.atom first).append (.atom (first + 1))

private theorem Opening.bounds (opening : Opening lexemes first next glyphs) :
    first < next ∧ next ≤ lexemes.length := by
  cases opening with
  | plain left => exact ⟨Nat.lt_succ_self first, kind?_lt left⟩
  | quoted quoted => exact ⟨by omega, kind?_lt quoted.2.1⟩

theorem Items.covers (read : Items lexemes top first stop items) : Covers first stop items := by
  induction read with
  | none top first => exact .none first
  | atom top first i items before plain ih => exact ih.append (.atom i)
  | form top first i next k items glyphs inner before opening inside close outer within =>
    exact outer.append (.form _ ((opening.covers.append within).append (.atom k)))

theorem Rest.covers (rest : Rest lexemes top first items) : Covers first lexemes.length items := by
  induction rest with
  | closed top first items read => exact read.covers
  | unclosed top first i next items glyphs inner before opening inside ih =>
    exact before.covers.append (.form _ (opening.covers.append ih))

inductive Complete (lexemes : List Lexeme) : Form → Prop
  | intro (first next k : Nat) (glyphs inner : List Node) (opening : Opening lexemes first next glyphs)
      (inside : Items lexemes false next k inner) (close : kind? lexemes k = some .rightParen) :
      Complete lexemes ⟨⟨first, k + 1⟩, glyphs ++ inner ++ [.atom k]⟩

inductive Unfinished (lexemes : List Lexeme) : Form → Prop
  | intro (first next : Nat) (glyphs inner : List Node) (opening : Opening lexemes first next glyphs)
      (inside : Rest lexemes false next inner) :
      Unfinished lexemes ⟨⟨first, lexemes.length⟩, glyphs ++ inner⟩

theorem Opening.forms (opening : Opening lexemes first next glyphs) :
    Node.formsOf glyphs = [] := by
  cases opening <;> rfl

theorem Opening.mem_forms (opening : Opening lexemes first next glyphs) {span : Span} {f : Form}
    (member : f ∈ Node.formsOf (items ++ [.form span (glyphs ++ inner)])) :
    f ∈ Node.formsOf items ∨ f = ⟨span, glyphs ++ inner⟩ ∨ f ∈ Node.formsOf inner := by
  simpa [Node.formsOf, Node.forms, opening.forms] using member

theorem Items.complete (read : Items lexemes top first stop items) :
    ∀ f ∈ Node.formsOf items, Complete lexemes f := by
  induction read with
  | none => simp [Node.formsOf]
  | atom top first i items before plain ih => simpa [Node.formsOf, Node.forms] using ih
  | form top first i next k items glyphs inner before opening inside close outer within =>
    intro f member
    rw [List.append_assoc glyphs] at member
    rcases opening.mem_forms member with earlier | same | deeper
    · exact outer f earlier
    · rw [same, ← List.append_assoc]
      exact .intro i next k glyphs inner opening inside close
    · exact within f (by simpa [Node.formsOf, Node.forms] using deeper)

theorem Rest.made (rest : Rest lexemes top first items) :
    ∀ f ∈ Node.formsOf items, Complete lexemes f ∨ Unfinished lexemes f := by
  induction rest with
  | closed top first items read => exact fun f member => .inl (read.complete f member)
  | unclosed top first i next items glyphs inner before opening inside ih =>
    intro f member
    rcases opening.mem_forms member with earlier | rfl | deeper
    · exact .inl (before.complete f earlier)
    · exact .inr (.intro i next glyphs inner opening inside)
    · exact ih f deeper

theorem made_covers {f : Form} (made : Complete lexemes f ∨ Unfinished lexemes f) :
    Covers f.span.first f.span.stop f.items ∧ f.span.first < f.span.stop ∧
      f.span.stop ≤ lexemes.length := by
  rcases made with ⟨first, next, k, glyphs, inner, opening, inside, close⟩ |
    ⟨first, next, glyphs, inner, opening, inside⟩
  · have within := inside.covers
    refine ⟨(opening.covers.append within).append (.atom k), ?_, kind?_lt close⟩
    exact Nat.lt_succ_of_le (Nat.le_trans opening.bounds.1.le within.1)
  · have within := inside.covers
    exact ⟨opening.covers.append within, Nat.lt_of_lt_of_le opening.bounds.1 within.1, Nat.le_refl _⟩

end Nesting

theorem build_size (native : String → Bool) (text : String) :
    (Document.build native text).atoms.size = (Lexing.ofText text.toList).lexemes.length := by
  rw [← Array.length_toList, build_atoms, atomsFrom_length]

theorem build_rest (native : String → Bool) (text : String) :
    Nesting.Rest (Lexing.ofText text.toList).lexemes true 0 (Document.build native text).root.items :=
  Nesting.ofLexemes_rest _

theorem flatten_covers (v : FormView) (bound : v.form.span.stop ≤ v.atoms.size)
    (covers : Covers v.form.span.first v.form.span.stop v.form.items) :
    v.flatten.map some = v.form.leaves.map (v.atoms[·]?) := by
  rw [Form.leaves, covers.2, FormView.flatten]
  apply List.ext_getElem
  · simp only [List.length_map, Array.length_toList, Array.size_extract, Span.indices,
      List.length_range']
    omega
  · intro i left right
    simp [Span.indices]

/-- The tree and the atoms of a document are one structure. The walk of every form lists the block of
indices that its span records, and flattening it gives the atoms of that walk. -/
structure Document.Tiled (d : Document) : Prop where
  indexed : ∀ i (a : Atom), d.atoms[i]? = some a → a.index = i
  walk : d.root.leaves = List.range d.atoms.size
  whole : d.root.span = ⟨0, d.atoms.size⟩
  spans : ∀ v ∈ d.view.subtree, v.form.leaves = v.form.span.indices
  nonempty : ∀ v ∈ d.view.subtree, v.isRoot = false → v.form.span.first < v.form.span.stop
  flattened : ∀ v ∈ d.view.subtree, v.flatten.map some = v.form.leaves.map (d.atoms[·]?)

private theorem build_subtree (native : String → Bool) (text : String) (v : FormView)
    (member : v ∈ (Document.build native text).view.subtree) :
    v.atoms = (Document.build native text).atoms ∧
      Covers v.form.span.first v.form.span.stop v.form.items ∧ v.form.span.stop ≤ v.atoms.size ∧
      (v.isRoot = false → v.form.span.first < v.form.span.stop) := by
  have rest := build_rest native text
  have size := build_size native text
  rw [FormView.subtree_eq] at member
  rcases List.mem_cons.mp member with rfl | inside
  · refine ⟨rfl, rest.covers, size.ge, ?_⟩
    intro nested
    cases nested
  · obtain ⟨f, nested, rfl⟩ := List.mem_map.mp inside
    obtain ⟨covers, nonempty, bound⟩ := Nesting.made_covers (rest.made f nested)
    exact ⟨rfl, covers, bound.trans size.ge, fun _ => nonempty⟩

theorem build_tiled (native : String → Bool) (text : String) :
    (Document.build native text).Tiled where
  indexed i a found := by
    rw [← Array.getElem?_toList, build_atoms] at found
    rw [atomsFrom_index 0 .origin _ i a found, Nat.zero_add]
  walk := by
    rw [build_size, List.range_eq_range']
    exact (build_rest native text).covers.2
  whole := by
    rw [build_size]
    rfl
  spans v member := (build_subtree native text v member).2.1.2
  nonempty v member := (build_subtree native text v member).2.2.2
  flattened v member := by
    obtain ⟨same, covers, bound, -⟩ := build_subtree native text v member
    rw [← same]
    exact flatten_covers v bound covers

end LispIndex
