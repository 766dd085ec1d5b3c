import LispIndex.Proofs.FormHeads

/-!
Assignments, which list variables and values in turn. The test for a variable looks at the one atom
before it, so it tells the values apart from the variables unless a comment stands there.
-/

namespace LispIndex

def Atom.isVariable (a : Atom) : Bool :=
  !a.isPrimitive && !a.isOneOf ["setq"]

namespace Atom

private theorem not_comment_of_setq {a : Atom} (setq : a.isOneOf ["setq"] = true) :
    a.isComment = false := by
  have plain := isOpening_of_isOneOf (by decide) setq
  rw [isOpening, Bool.or_eq_false_iff, Bool.or_eq_false_iff] at plain
  exact plain.1.1

private theorem leavesRoom_eq (a : Atom)
    (kind : a.isVariable = true ∨ a.isQuote = true ∨ a.isComment = true) :
    (!a.isQuote && (a.isPrimitive || Text.sameName a.symbol "setq")) = a.isComment := by
  rcases kind with name | quote | comment
  · rw [isVariable, Bool.and_eq_true, Bool.not_eq_true', Bool.not_eq_true', isOneOf, List.any_cons,
      List.any_nil, Bool.or_false] at name
    have code : a.isComment = false := by
      rw [Bool.eq_false_iff]
      intro comment
      rw [isPrimitive_of_comment comment] at name
      cases name.1
    rw [name.1, name.2, code, Bool.or_false, Bool.and_false]
  · rw [quote, not_comment_of_symbol quote (by decide), Bool.not_true, Bool.false_and]
  · have plain : a.isQuote = false := by
      rw [Bool.eq_false_iff]
      intro quote
      rw [not_comment_of_symbol quote (by decide)] at comment
      cases comment
    rw [plain, isPrimitive_of_comment comment, comment, Bool.true_or, Bool.not_false, Bool.and_true]

end Atom

namespace Document

def isOperand (d : Document) : Node → Bool
  | .atom i => !d.atoms[i]?.any fun a => a.isComment || a.isRightParen
  | .form _ _ => true

/-- Operands in which variables and values take turns; any quotes before a value belong to it. -/
inductive Pairs (d : Document) : List Node → List Node → Prop
  | none : Pairs d [] []
  | pair (name : Nat) (quotes : List Node) (value : Node) (rest values : List Node)
      (named : d.Passes Atom.isVariable name)
      (quoted : d.AllAtoms Atom.isQuote quotes)
      (others : Pairs d rest values) :
      Pairs d (.atom name :: quotes ++ value :: rest) (value :: values)

/-- A form that assigns the given values: `setq` is the first of its atoms that is no comment, and
its operands are pairs. -/
structure Assigns (d : Document) (f : Form) (head : Nat) (values : List Node) : Prop where
  nested : f ∈ d.root.nested
  setq : d.Passes (Atom.isOneOf ["setq"]) head
  behind : ∃ place paren front rest, d.OpensAt f place paren ∧
    f.items.drop (place + 1) = front ++ .atom head :: rest ∧
    d.AllAtoms Atom.isComment front ∧ d.Pairs (rest.filter d.isOperand) values

variable {d : Document}

/-- The operand before a value is its variable or a quote. -/
theorem Pairs.before {operands values : List Node} (pairs : d.Pairs operands values) {value : Node}
    (member : value ∈ values) :
    ∃ front i back, operands = front ++ .atom i :: value :: back ∧
      (d.Passes Atom.isVariable i ∨ d.Passes Atom.isQuote i) := by
  -- Right before a value is the last of its quotes, or its variable if it has none.
  induction pairs with
  | none => cases member
  | pair name quotes first rest values named quoted others ih =>
    rcases List.mem_cons.mp member with rfl | later
    · rcases List.eq_nil_or_concat quotes with rfl | ⟨earlier, last, rfl⟩
      · exact ⟨[], name, rest, rfl, .inl named⟩
      · obtain ⟨q, rfl, quote⟩ := quoted last (by simp)
        exact ⟨.atom name :: earlier, q, rest, by simp, .inr quote⟩
    · obtain ⟨front, i, back, rfl, plain⟩ := ih later
      exact ⟨.atom name :: quotes ++ first :: front, i, back, by simp, plain⟩

end Document

theorem Document.AllAtoms.passes {d : Document} {test : Atom → Bool} {items : List Node}
    (all : d.AllAtoms test items) {first stop i : Nat} (covers : Covers first stop items)
    (low : first ≤ i) (high : i < stop) : d.Passes test i := by
  rcases Node.mem_leavesOf.mp (covers.mem_leavesOf.mpr ⟨low, high⟩) with
    direct | ⟨span, inner, member, -⟩
  · obtain ⟨k, same, holds⟩ := all _ direct
    cases same
    exact holds
  · obtain ⟨k, same, -⟩ := all _ member
    cases same

namespace Document

open Export

variable {d : Document} {lexemes : List Lexeme} {f : Form} {head v : Nat} {values : List Node}

private theorem Reads.right_final (reads : d.Reads lexemes) (nested : f ∈ d.root.nested) {i : Nat}
    {front back : List Node} (split : f.items = front ++ .atom i :: back)
    (right : d.Passes Atom.isRightParen i) : back = [] := by
  have found : f.items[front.length]? = some (.atom i) := by simp [split]
  have last := reads.right_last nested found ((reads.right i).mp right)
  rw [split] at last
  simpa using last

private theorem comment_or_right {node : Node} (other : ¬ d.isOperand node = true) :
    ∃ i, node = .atom i ∧ (d.Passes Atom.isComment i ∨ d.Passes Atom.isRightParen i) := by
  cases node with
  | form span items => exact absurd rfl other
  | atom i =>
    rw [isOperand, Bool.not_eq_true', Bool.not_eq_false, Option.any_eq_true] at other
    obtain ⟨a, found, kind⟩ := other
    rcases Bool.or_eq_true_iff.mp kind with comment | right
    · exact ⟨i, rfl, .inl ⟨a, found, comment⟩⟩
    · exact ⟨i, rfl, .inr ⟨a, found, right⟩⟩

private theorem Reads.comments_between (reads : d.Reads lexemes) (nested : f ∈ d.root.nested)
    {front gap back : List Node} (split : f.items = front ++ (gap ++ .atom v :: back))
    (others : ∀ node ∈ gap, ¬ d.isOperand node = true) :
    d.AllAtoms Atom.isComment gap := by
  intro node member
  obtain ⟨i, rfl, comment | right⟩ := comment_or_right (others node member)
  · exact ⟨i, rfl, comment⟩
  · -- A right parenthesis ends its form, but the value is behind this one.
    obtain ⟨before, after, parts⟩ := List.append_of_mem member
    have parted : f.items = (front ++ before) ++ .atom i :: (after ++ .atom v :: back) := by
      simp [split, parts]
    have final := reads.right_final nested parted right
    simp at final

/-- What stands before a value: its form's parenthesis, comments, the head, and at last its variable
or a quote with nothing but comments behind it. -/
theorem Assigns.before (assigns : d.Assigns f head values) (reads : d.Reads lexemes)
    (sourced : d.Sourced) (member : .atom v ∈ values) :
    ∃ place paren i, d.OpensAt f place paren ∧ nextCode? d.atoms paren = some head ∧
      .atom v ∈ f.items ∧ paren < i ∧ i < v ∧
      (d.Passes Atom.isVariable i ∨ d.Passes Atom.isQuote i) ∧
      ∀ k, i < k → k < v → d.Passes Atom.isComment k := by
  obtain ⟨place, paren, front, rest, opens, body, remarks, pairs⟩ := assigns.behind
  obtain ⟨before, i, back, operands, plain⟩ := pairs.before member
  obtain ⟨early, late, rfl, -, filtered⟩ := List.filter_eq_append_iff.mp operands
  obtain ⟨lead, behind, rfl, -, -, tail⟩ := List.filter_eq_cons_iff.mp filtered
  obtain ⟨gap, last, rfl, others, -, -⟩ := List.filter_eq_cons_iff.mp tail
  -- The items of the form, cut at the parenthesis, the head, the operand before the value and the
  -- value itself; the atoms of a stretch between two cuts are the numbers between them.
  have split : f.items = f.items.take place ++ .atom paren :: (front ++ .atom head ::
      ((early ++ lead) ++ .atom i :: (gap ++ .atom v :: last))) := by
    obtain ⟨bound, here⟩ := List.getElem?_eq_some_iff.mp opens.2.1
    rw [List.append_assoc, ← body, ← here, ← List.drop_eq_getElem_cons bound,
      List.take_append_drop]
  have parted : f.items = (f.items.take place ++ .atom paren :: (front ++ .atom head ::
      ((early ++ lead) ++ [.atom i]))) ++ (gap ++ .atom v :: last) := by simpa using split
  have comments := reads.comments_between assigns.nested parted others
  have covers := (sourced.forms f assigns.nested).1
  rw [split] at covers
  obtain ⟨-, inside⟩ := covers.behind_atom
  obtain ⟨first, operands⟩ := inside.behind_atom
  obtain ⟨apart, later⟩ := operands.behind_atom
  obtain ⟨between, -⟩ := later.behind_atom
  refine ⟨place, paren, i, opens, ?_, ?_, ?_, between.1, plain, ?_⟩
  · obtain ⟨a, here, setq⟩ := assigns.setq
    exact nextCode?_eq_some_iff.mpr ⟨first.1, ⟨a, here, Atom.not_comment_of_setq setq⟩,
      fun k low high => remarks.passes first low high⟩
  · rw [split]
    simp
  · exact (Nat.lt_of_succ_le first.1).trans (Nat.lt_of_succ_le apart.1)
  · exact fun k low high => comments.passes between low high

private theorem Assigns.setqHead? (assigns : d.Assigns f head values) (reads : d.Reads lexemes)
    (sourced : d.Sourced) (member : .atom v ∈ values) :
    Export.setqHead? (.scan d.atoms) d.atoms v =
      if d.atoms[v - 1]?.any Atom.isComment then some head else none := by
  obtain ⟨place, paren, i, opens, code, item, low, high, plain, comments⟩ :=
    assigns.before reads sourced member
  have enclosing := reads.enclosingParen?_item sourced assigns.nested opens item (low.trans high)
  have named : formHeadNamed? (.scan d.atoms) d.atoms ["setq"] v = some head := by
    obtain ⟨a, here, setq⟩ := assigns.setq
    have first : formHead? (.scan d.atoms) d.atoms v = some head := by
      change (enclosingParen? d.atoms v).bind (nextCode? d.atoms) = some head
      rw [enclosing]
      exact code
    rw [formHeadNamed?, first, Option.filter_some, here, Option.any_some]
    exact if_pos setq
  have positive : (v != 0) = true := bne_iff_ne.mpr (Nat.ne_zero_of_lt high)
  rw [Export.setqHead?, named, Option.filter_some, positive, Bool.true_and]
  obtain ⟨a, here, kind⟩ : ∃ a, d.atoms[v - 1]? = some a ∧
      (a.isVariable = true ∨ a.isQuote = true ∨ a.isComment = true) := by
    rcases Nat.eq_or_lt_of_le (Nat.le_sub_one_of_lt high) with same | above
    · rw [← same]
      rcases plain with ⟨a, here, name⟩ | ⟨a, here, quote⟩
      · exact ⟨a, here, .inl name⟩
      · exact ⟨a, here, .inr (.inl quote)⟩
    · obtain ⟨a, here, comment⟩ := comments (v - 1) above (by omega)
      exact ⟨a, here, .inr (.inr comment)⟩
  rw [here, Option.any_some, Option.any_some, a.leavesRoom_eq kind]

end Document

/-- An atom that is a value of an assignment is taken for a variable of it exactly if the atom
before it is a comment. -/
theorem setqHead?_of_value (native : String → Bool) (text : String) {d : Document}
    (made : d = .build native text ∨ d = .parse native text) {f : Form} {head v : Nat}
    {values : List Node} (assigns : d.Assigns f head values) (member : .atom v ∈ values) :
    Export.setqHead? (.scan d.atoms) d.atoms v =
      if d.atoms[v - 1]?.any Atom.isComment then some head else none := by
  have reads := build_reads native text
  rcases made with rfl | rfl
  · exact assigns.setqHead? reads (build_sourced native text) member
  · exact assigns.setqHead? reads.annotate (parse_sourced native text) member

theorem Document.passes {d : Document} {test : Atom → Bool} {i : Nat}
    (any : d.atoms[i]?.any test = true) : d.Passes test i :=
  (Option.any_eq_true _ _).mp any

private theorem eq_atoms {items : List Node} {indices : List Nat}
    (same : items.map Node.index? = indices.map some) : items = indices.map .atom := by
  induction items generalizing indices with
  | nil => rw [List.map_eq_nil_iff.mp same.symm, List.map_nil]
  | cons node rest ih =>
    obtain ⟨index, others, rfl, here, later⟩ := List.map_eq_cons_iff.mp same.symm
    cases node with
    | atom i => rw [ih later.symm, Option.some.inj here, List.map_cons]
    | form span inner => cases here

-- The tree is compared by its numbers, for which equality can be decided.
private theorem Document.assigns_of_flat {d : Document} (span : Span) (rest operands : List Nat)
    {values : List Node}
    (root : d.root.children.map (fun f => (f.span, f.items.map Node.index?)) =
      [(span, (0 :: 1 :: rest).map some)])
    (left : d.Passes Atom.isLeftParen 0) (setq : d.Passes (Atom.isOneOf ["setq"]) 1)
    (kept : rest.filter (fun i => d.isOperand (.atom i)) = operands)
    (pairs : d.Pairs (operands.map .atom) values) :
    d.Assigns ⟨span, (0 :: 1 :: rest).map .atom⟩ 1 values := by
  have nested : ⟨span, (0 :: 1 :: rest).map .atom⟩ ∈ d.root.nested := by
    obtain ⟨f, others, split, same, -⟩ := List.map_eq_cons_iff.mp root
    obtain ⟨own, indices⟩ := Prod.mk.inj same
    have direct : f ∈ d.root.children := split ▸ List.mem_cons_self
    rw [← own, ← eq_atoms indices]
    exact Form.child_nested direct
  refine ⟨nested, setq, 0, 0, [], rest.map .atom, ⟨left, rfl, .inl rfl⟩, rfl,
    List.forall_mem_nil _, ?_⟩
  rw [List.filter_map]
  exact kept ▸ pairs

theorem setqHead?_of_value_quoted :
    let d := Document.build (fun _ => false) "(setq ;x\n a \x27b)"
    let f : Form := ⟨⟨0, 7⟩, (List.range 7).map .atom⟩
    d.Assigns f 1 [.atom 5] ∧ Export.setqHead? (.scan d.atoms) d.atoms 5 = none := by
  intro d f
  have pairs : d.Pairs [.atom 3, .atom 4, .atom 5] [.atom 5] :=
    .pair 3 [.atom 4] (.atom 5) [] [] (Document.passes (by decide +kernel))
      (fun node member => ⟨4, List.mem_singleton.mp member, Document.passes (by decide +kernel)⟩)
      .none
  have assigns : d.Assigns f 1 [.atom 5] :=
    Document.assigns_of_flat ⟨0, 7⟩ [2, 3, 4, 5, 6] [3, 4, 5] (by decide +kernel)
      (Document.passes (by decide +kernel)) (Document.passes (by decide +kernel))
      (by decide +kernel) pairs
  have value := setqHead?_of_value (fun _ => false) "(setq ;x\n a \x27b)" (.inl rfl) assigns
    (List.mem_singleton.mpr rfl)
  exact ⟨assigns, value.trans (if_neg (by decide +kernel))⟩

/-- Behind a comment a value is taken for a variable. -/
theorem setqHead?_behind_comment :
    let d := Document.build (fun _ => false) "(setq a ;c\n b)"
    let f : Form := ⟨⟨0, 6⟩, (List.range 6).map .atom⟩
    d.Assigns f 1 [.atom 4] ∧ Export.setqHead? (.scan d.atoms) d.atoms 4 = some 1 := by
  intro d f
  have pairs : d.Pairs [.atom 2, .atom 4] [.atom 4] :=
    .pair 2 [] (.atom 4) [] [] (Document.passes (by decide +kernel)) nofun .none
  refine ⟨?_, by decide +kernel⟩
  exact Document.assigns_of_flat ⟨0, 6⟩ [2, 3, 4, 5] [2, 4] (by decide +kernel)
    (Document.passes (by decide +kernel)) (Document.passes (by decide +kernel))
    (by decide +kernel) pairs

end LispIndex
