import LispIndex.Proofs.Surroundings

/-!
Changes to the atoms of a document that do not show in its marks. What is asked of the atoms on the
way to the marks has the same answer behind such a change.
-/

namespace LispIndex

theorem Atom.any_map (atoms : Array Atom) {change : Atom → Atom} {test : Atom → Bool}
    (blind : ∀ a : Atom, test (change a) = test a) (index : Nat) :
    (atoms.map change)[index]?.any test = atoms[index]?.any test := by
  rw [Array.getElem?_map, Option.any_map, funext blind]

namespace Export

/-- A change to atoms that shows in nothing that marks depend on. -/
structure Unseen (change : Atom → Atom) : Prop where
  isComment : ∀ a, (change a).isComment = a.isComment
  isLeftParen : ∀ a, (change a).isLeftParen = a.isLeftParen
  isRightParen : ∀ a, (change a).isRightParen = a.isRightParen
  isQuote : ∀ a, (change a).isQuote = a.isQuote
  isPrimitive : ∀ a, (change a).isPrimitive = a.isPrimitive
  sameName : ∀ a, Text.sameName (change a).symbol = Text.sameName a.symbol
  holdsMarker : ∀ a, holdsMarker (change a).symbol.toList = holdsMarker a.symbol.toList
  line : ∀ a, (change a).line = a.line
  lastLine : ∀ a, (change a).lastLine = a.lastLine
  index : ∀ a, (change a).index = a.index

namespace Unseen

variable {change : Atom → Atom} (unseen : Unseen change) (atoms : Array Atom)

include unseen

private theorem openParenBelow_map (closed index : Nat) :
    openParenBelow (atoms.map change) closed index = openParenBelow atoms closed index := by
  induction index generalizing closed with
  | zero => rfl
  | succ index ih =>
    rw [openParenBelow, openParenBelow, Array.getElem?_map]
    cases atoms[index]? with
    | none => exact ih closed
    | some a => simp only [Option.map_some, unseen.isRightParen, unseen.isLeftParen, ih]

private theorem isCode_map (index : Nat) :
    isCode (atoms.map change) index = isCode atoms index := by
  apply Atom.any_map
  intro a
  rw [unseen.isComment]

private theorem codeFrom_map (index count : Nat) :
    codeFrom (atoms.map change) index count = codeFrom atoms index count := by
  induction count generalizing index with
  | zero => rfl
  | succ count ih => rw [codeFrom, codeFrom, unseen.isCode_map, ih]

private theorem codeBelow_map (index : Nat) :
    codeBelow (atoms.map change) index = codeBelow atoms index := by
  induction index with
  | zero => rfl
  | succ index ih => rw [codeBelow, codeBelow, unseen.isCode_map, ih]

private theorem commentFrom_map (line index count : Nat) :
    commentFrom (atoms.map change) line index count = commentFrom atoms line index count := by
  induction count generalizing index with
  | zero => rfl
  | succ count ih =>
    rw [commentFrom, commentFrom, Array.getElem?_map]
    cases atoms[index]? with
    | none => rfl
    | some a => simp only [Option.map_some, unseen.isComment, unseen.line, unseen.index, ih]

private theorem enclosingParen?_map (index : Nat) :
    enclosingParen? (atoms.map change) index = enclosingParen? atoms index := by
  rw [enclosingParen?, unseen.openParenBelow_map, Array.size_map, enclosingParen?]

private theorem nextCode?_map (index : Nat) :
    nextCode? (atoms.map change) index = nextCode? atoms index := by
  rw [nextCode?, unseen.codeFrom_map, Array.size_map, nextCode?]

private theorem previousCode?_map (index : Nat) :
    previousCode? (atoms.map change) index = previousCode? atoms index := by
  rw [previousCode?, unseen.codeBelow_map, Array.size_map, previousCode?]

private theorem commentAhead?_map (index : Nat) :
    commentAhead? (atoms.map change) index = commentAhead? atoms index := by
  rw [commentAhead?, commentAhead?, Array.getElem?_map, Array.size_map, Option.bind_map]
  simp only [unseen.commentFrom_map, unseen.line, Function.comp_def]

theorem scan_map : Surroundings.scan (atoms.map change) = .scan atoms := by
  rw [Surroundings.scan, funext (unseen.enclosingParen?_map atoms),
    funext (unseen.commentAhead?_map atoms), Surroundings.scan]

private theorem aheadOf_map (index : Nat) :
    aheadOf (atoms.map change) index = aheadOf atoms index := by
  funext later
  rw [aheadOf, aheadOf, Array.getElem?_map, Array.getElem?_map]
  cases atoms[index]? with
  | none => rfl
  | some a =>
    cases atoms[index + 1]? with
    | none => rfl
    | some next => simp only [Option.map_some, unseen.line, unseen.isComment]

theorem table_map : Surroundings.table (atoms.map change) = .table atoms := by
  have parens : enclosingTable (atoms.map change) = enclosingTable atoms := by
    rw [← Array.toList_inj, enclosingTable_eq, enclosingTable_eq, Array.size_map,
      funext (unseen.enclosingParen?_map atoms)]
  have ahead : aheadTable (atoms.map change) = aheadTable atoms := by
    rw [aheadTable, aheadTable, Array.size_map, funext (unseen.aheadOf_map atoms)]
  rw [Surroundings.table, parens, ahead, Surroundings.table]

private theorem commentBehind?_map (paren : Nat) :
    commentBehind? (atoms.map change) paren = commentBehind? atoms paren := by
  rw [commentBehind?, commentBehind?, Array.getElem?_map, Array.getElem?_map]
  cases atoms[paren - 1]? with
  | none => rfl
  | some before =>
    cases atoms[paren]? with
    | none => rfl
    | some a => simp only [Option.map_some, unseen.isComment, unseen.lastLine, unseen.line]

variable (around : Surroundings) (index : Nat)

private theorem formHeadNamed?_map (names : List String) :
    formHeadNamed? around (atoms.map change) names index =
      formHeadNamed? around atoms names index := by
  have named (head : Nat) :
      ((atoms.map change)[head]?.any fun a => names.any (Text.sameName a.symbol)) =
        atoms[head]?.any fun a => names.any (Text.sameName a.symbol) := by
    apply Atom.any_map
    intro a
    rw [unseen.sameName]
  rw [formHeadNamed?, formHeadNamed?, formHead?, formHead?, funext (unseen.nextCode?_map atoms),
    funext named]

theorem defunHead?_map :
    defunHead? around (atoms.map change) index = defunHead? around atoms index :=
  unseen.formHeadNamed?_map atoms around index _

theorem setqHead?_map :
    setqHead? around (atoms.map change) index = setqHead? around atoms index := by
  rw [setqHead?, unseen.formHeadNamed?_map, Atom.any_map]
  · rfl
  · intro a
    rw [unseen.isQuote, unseen.isPrimitive, unseen.sameName]

private theorem context_map (source head : Nat) :
    context around (atoms.map change) source head = context around atoms source head := by
  have marks (link : Nat) :
      ((atoms.map change)[link]?.any fun a => Export.holdsMarker a.symbol.toList) =
        atoms[link]?.any fun a => Export.holdsMarker a.symbol.toList :=
    Atom.any_map atoms unseen.holdsMarker link
  rw [context, context, funext (unseen.commentBehind?_map atoms), funext marks]

theorem bindingContext?_map :
    bindingContext? around (atoms.map change) index = bindingContext? around atoms index := by
  have binds : canBind (atoms.map change) index = canBind atoms index := by
    rw [canBind, Atom.any_map atoms unseen.isLeftParen, canBind]
  have contexts : context around (atoms.map change) index = context around atoms index :=
    funext (unseen.context_map atoms around index)
  rw [bindingContext?, defunContext?, setqContext?, unseen.defunHead?_map, unseen.setqHead?_map,
    binds, contexts, funext (unseen.nextCode?_map atoms)]
  rfl

theorem mayNameFunction_map :
    mayNameFunction (atoms.map change) index = mayNameFunction atoms index := by
  have front (before : Nat) : ((atoms.map change)[before]?.any fun a =>
      if a.isLeftParen then before == 0 || !(atoms.map change)[before - 1]?.any Atom.isQuote
      else a.isQuote || Text.sameName a.symbol "defun" || Text.sameName a.symbol "defun-q") =
        atoms[before]?.any fun a =>
          if a.isLeftParen then before == 0 || !atoms[before - 1]?.any Atom.isQuote
          else a.isQuote || Text.sameName a.symbol "defun" || Text.sameName a.symbol "defun-q" := by
    rw [Atom.any_map atoms unseen.isQuote, Atom.any_map]
    intro a
    rw [unseen.isLeftParen, unseen.isQuote, unseen.sameName]
  rw [mayNameFunction, unseen.previousCode?_map, funext front, Atom.any_map]
  · rfl
  · intro a
    rw [unseen.isPrimitive]

end Unseen

end Export

end LispIndex
