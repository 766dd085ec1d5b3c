import LispIndex.Export
import Mathlib.Tactic.SplitIfs

/-!
The tables of what lies around the atoms hold what the scans find, however the parentheses are
nested and the lines are laid out.
-/

namespace LispIndex.Export

def Indexed (atoms : Array Atom) : Prop :=
  ∀ (i : Nat) (a : Atom), atoms[i]? = some a → a.index = i

instance (atoms : Array Atom) : Decidable (Indexed atoms) :=
  decidable_of_iff (∀ i : Fin atoms.size, atoms[i].index = i)
    ⟨fun all i _ found =>
      have ⟨bound, here⟩ := Array.getElem?_eq_some_iff.mp found
      here ▸ all ⟨i, bound⟩,
    fun indexed i => indexed i atoms[i] (Array.getElem?_eq_getElem i.isLt)⟩

variable (atoms : Array Atom)

def opened (index : Nat) (a : Atom) (parens : List Nat) : List Nat :=
  if a.isLeftParen then index :: parens else if a.isRightParen then parens.tail else parens

variable {atoms} in
/-- A scan backwards that has to match some right parentheses finds the open parenthesis that lies
that many levels further out. -/
theorem opened_getElem? {index : Nat} {a : Atom} (here : atoms[index]? = some a)
    {parens : List Nat}
    (before : ∀ closed : Nat, parens[closed]? = openParenBelow atoms closed index) (closed : Nat) :
    (opened index a parens)[closed]? = openParenBelow atoms closed (index + 1) := by
  rw [opened, openParenBelow, here]
  dsimp only
  by_cases right : a.isRightParen = true
  · have left : ¬ a.isLeftParen = true := by
      rw [Atom.isRightParen, beq_iff_eq] at right
      simp [Atom.isLeftParen, right]
    rw [if_pos right, if_neg left, if_pos right, List.getElem?_tail, before]
  · rw [if_neg right, if_neg right]
    by_cases left : a.isLeftParen = true
    · rw [if_pos left, if_pos left]
      cases closed with
      | zero => rfl
      | succ closed => simpa using before closed
    · rw [if_neg left, if_neg left, before]

/-- The pass over the atoms once it has read the first `count` of them: what it has listed, and the
parentheses that are open. -/
structure Passed (count : Nat) (state : Array (Option Nat) × List Nat) : Prop where
  listed : state.1.toList = (List.range count).map (openParenBelow atoms 0)
  parens : ∀ closed : Nat, state.2[closed]? = openParenBelow atoms closed count

theorem enclosingTable_eq :
    (enclosingTable atoms).toList = (List.range atoms.size).map (enclosingParen? atoms) := by
  have scans : (List.range atoms.size).map (openParenBelow atoms 0) =
      (List.range atoms.size).map (enclosingParen? atoms) := by
    apply List.map_congr_left
    intro index member
    rw [enclosingParen?, Nat.min_eq_left (Nat.le_of_lt (List.mem_range.mp member))]
  rw [← scans]
  refine (Array.foldl_induction (Passed atoms) ⟨rfl, fun _ => rfl⟩ ?_ :
    Passed atoms atoms.size _).listed
  rintro index ⟨table, parens⟩ ⟨listed, before⟩
  have here : atoms[index.val]? = some atoms[index] := Array.getElem?_eq_getElem index.isLt
  have size : table.size = index.val := by
    simpa using congrArg List.length listed
  constructor
  · have head : parens.head? = openParenBelow atoms 0 index := by
      rw [List.head?_eq_getElem?, before]
    rw [Array.toList_push, listed, head, List.range_succ, List.map_append]
    rfl
  · change ∀ closed : Nat, (opened table.size atoms[index] parens)[closed]? = _
    rw [size]
    exact opened_getElem? here before

theorem commentAhead?_succ {index : Nat} {a : Atom} (here : atoms[index]? = some a) :
    commentAhead? atoms index =
      match atoms[index + 1]? with
      | none => none
      | some n =>
        if n.line = a.line then
          if n.isComment then some n.index else commentAhead? atoms (index + 1)
        else none := by
  rw [commentAhead?, here, Option.bind_some]
  cases next : atoms[index + 1]? with
  | none =>
    have none : atoms.size - (index + 1) = 0 :=
      Nat.sub_eq_zero_of_le (Array.getElem?_eq_none_iff.mp next)
    rw [none, commentFrom]
  | some n =>
    have bound := (Array.getElem?_eq_some_iff.mp next).1
    obtain ⟨count, more⟩ := Nat.exists_eq_add_of_lt bound
    have left : atoms.size - (index + 1) = count + 1 := by omega
    have rest : atoms.size - (index + 1 + 1) = count := by omega
    rw [left, commentFrom, next, commentAhead?, next, Option.bind_some, rest]
    dsimp only
    split_ifs with same comment
    · rfl
    · rw [same]
    · rfl

variable {atoms} in
/-- Among atoms that know their places, the scan from an atom goes on as the scan from the next. -/
theorem commentAhead?_eq_aheadOf (indexed : Indexed atoms) (index : Nat) :
    commentAhead? atoms index = aheadOf atoms index (commentAhead? atoms (index + 1)) := by
  rw [aheadOf]
  cases here : atoms[index]? with
  | none => rw [commentAhead?, here, Option.bind_none]
  | some a =>
    rw [commentAhead?_succ atoms here]
    cases next : atoms[index + 1]? with
    | none => rfl
    | some n =>
      dsimp only
      rw [indexed (index + 1) n next]

/-- The pass backwards over the last `count` atoms lists what the scans from them find. -/
theorem aheadTable_from (indexed : Indexed atoms) (index count : Nat)
    (total : index + count = atoms.size) :
    (List.range' index count).foldr
        (fun index table => aheadOf atoms index table.head?.join :: table) [] =
      (List.range' index count).map (commentAhead? atoms) := by
  induction count generalizing index with
  | zero => rfl
  | succ count ih =>
    have later : ((List.range' (index + 1) count).map (commentAhead? atoms)).head?.join =
        commentAhead? atoms (index + 1) := by
      cases count with
      | zero =>
        have beyond : atoms[index + 1]? = none := Array.getElem?_eq_none (Nat.le_of_eq total.symm)
        rw [commentAhead?, beyond]
        rfl
      | succ count => rfl
    rw [List.range'_succ, List.foldr_cons, ih (index + 1) (by omega), List.map_cons, later,
      commentAhead?_eq_aheadOf indexed index]

private theorem aheadTable_eq (indexed : Indexed atoms) :
    (aheadTable atoms).toList = (List.range atoms.size).map (commentAhead? atoms) := by
  rw [aheadTable, List.range_eq_range']
  exact aheadTable_from atoms indexed 0 atoms.size (Nat.zero_add _)

namespace Surroundings

variable {atoms} {index : Nat}

theorem table_enclosing? (bound : index < atoms.size) :
    (table atoms).enclosing? index = enclosingParen? atoms index := by
  change (enclosingTable atoms)[index]?.join = enclosingParen? atoms index
  rw [← Array.getElem?_toList, enclosingTable_eq]
  simp [bound]

theorem table_commentAhead? (indexed : Indexed atoms) (bound : index < atoms.size) :
    (table atoms).commentAhead? index = Export.commentAhead? atoms index := by
  change (aheadTable atoms)[index]?.join = Export.commentAhead? atoms index
  rw [← Array.getElem?_toList, aheadTable_eq atoms indexed]
  simp [bound]

/-- The tables answer what the scans find for each atom, for parentheses that do not match and lines
in any order too. -/
theorem table_answers_scans (atoms : Array Atom) (indexed : Indexed atoms) (index : Nat)
    (bound : index < atoms.size) :
    (table atoms).enclosing? index = enclosingParen? atoms index ∧
      (table atoms).commentAhead? index = Export.commentAhead? atoms index :=
  ⟨table_enclosing? bound, table_commentAhead? indexed bound⟩

/-- A right parenthesis that closes nothing stands first, the line numbers fall, and the comment is
on the line of the name before it. -/
theorem table_answers_scans_unmatched :
    let atoms : Array Atom := #[⟨")", ⟨7, 0⟩, 0, [], false⟩, ⟨"(", ⟨7, 2⟩, 1, [], false⟩,
      ⟨"f", ⟨3, 0⟩, 2, [], false⟩, ⟨"x", ⟨3, 2⟩, 3, [], false⟩, ⟨"; y", ⟨3, 4⟩, 4, [], false⟩,
      ⟨"(", ⟨0, 0⟩, 5, [], false⟩]
    Indexed atoms ∧ 2 < atoms.size ∧
      (table atoms).enclosing? 2 = some 1 ∧ (table atoms).commentAhead? 2 = some 4 := by
  intro atoms
  have indexed : Indexed atoms := by decide
  have answers := table_answers_scans atoms indexed 2 (by decide)
  exact ⟨indexed, by decide, answers.1.trans (by decide), answers.2.trans (by decide)⟩

end Surroundings

end LispIndex.Export
