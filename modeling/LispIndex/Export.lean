import LispIndex.Document

/-!
Exported bindings. A comment that holds the export marker exports the function or variable whose
definition it stands beside: on the line of the name behind it, or directly above the form. The
questions are answered on the flat sequence of atoms, either by scanning it or from a table made
beforehand.
-/

namespace LispIndex.Export

def marker : List Char := "@global".toList

def occursIn (word : List Char) : List Char → Bool
  | [] => false
  | c :: rest => word.isPrefixOf (c :: rest) || occursIn word rest

def holdsMarker (text : List Char) : Bool :=
  occursIn marker (text.map Char.toLower)

/-- The nearest left parenthesis below `index` that is not closed again, when `closed` right
parentheses are still to be matched. -/
def openParenBelow (atoms : Array Atom) (closed : Nat) : Nat → Option Nat
  | 0 => none
  | index + 1 =>
    match atoms[index]? with
    | none => openParenBelow atoms closed index
    | some a =>
      if a.isRightParen then openParenBelow atoms (closed + 1) index
      else if a.isLeftParen then
        if closed = 0 then some index else openParenBelow atoms (closed - 1) index
      else openParenBelow atoms closed index

def enclosingParen? (atoms : Array Atom) (index : Nat) : Option Nat :=
  openParenBelow atoms 0 (min index atoms.size)

def isCode (atoms : Array Atom) (index : Nat) : Bool :=
  atoms[index]?.any (!·.isComment)

/-- The first of `count` places from `index` on that is no comment. -/
def codeFrom (atoms : Array Atom) (index : Nat) : Nat → Option Nat
  | 0 => none
  | count + 1 => if isCode atoms index then some index else codeFrom atoms (index + 1) count

def nextCode? (atoms : Array Atom) (index : Nat) : Option Nat :=
  codeFrom atoms (index + 1) (atoms.size - (index + 1))

def codeBelow (atoms : Array Atom) : Nat → Option Nat
  | 0 => none
  | index + 1 => if isCode atoms index then some index else codeBelow atoms index

def previousCode? (atoms : Array Atom) (index : Nat) : Option Nat :=
  codeBelow atoms (min index atoms.size)

/-- The first comment on `line` among `count` places from `index` on, all before it on that line. -/
def commentFrom (atoms : Array Atom) (line index : Nat) : Nat → Option Nat
  | 0 => none
  | count + 1 =>
    match atoms[index]? with
    | none => none
    | some a =>
      if a.line = line then
        if a.isComment then some a.index else commentFrom atoms line (index + 1) count
      else none

def commentAhead? (atoms : Array Atom) (index : Nat) : Option Nat :=
  atoms[index]?.bind fun a => commentFrom atoms a.line (index + 1) (atoms.size - (index + 1))

structure Surroundings where
  enclosing? : Nat → Option Nat
  commentAhead? : Nat → Option Nat

def Surroundings.scan (atoms : Array Atom) : Surroundings :=
  ⟨enclosingParen? atoms, Export.commentAhead? atoms⟩

def enclosingTable (atoms : Array Atom) : Array (Option Nat) :=
  (atoms.foldl (fun (table, parens) a =>
    let inner := if a.isLeftParen then table.size :: parens
      else if a.isRightParen then parens.tail else parens
    (table.push parens.head?, inner))
    ((#[], []) : Array (Option Nat) × List Nat)).1

/-- The first comment behind an atom on its line, when `later` is that behind the next atom. -/
def aheadOf (atoms : Array Atom) (index : Nat) (later : Option Nat) : Option Nat :=
  match atoms[index]?, atoms[index + 1]? with
  | some a, some next =>
    if next.line = a.line then if next.isComment then some (index + 1) else later else none
  | _, _ => none

def aheadTable (atoms : Array Atom) : Array (Option Nat) :=
  ((List.range atoms.size).foldr
    (fun index table => aheadOf atoms index table.head?.join :: table) []).toArray

def Surroundings.table (atoms : Array Atom) : Surroundings :=
  let parens := enclosingTable atoms
  let ahead := aheadTable atoms
  ⟨fun index => parens[index]?.join, fun index => ahead[index]?.join⟩

structure Context where
  links : List Nat
  exported : Bool
deriving DecidableEq

/-- The comment that ends on the line above a left parenthesis, directly before it. -/
def commentBehind? (atoms : Array Atom) (paren : Nat) : Option Nat :=
  if paren = 0 then none
  else
    match atoms[paren - 1]?, atoms[paren]? with
    | some before, some a =>
      if before.isComment && before.lastLine + 1 == a.line then some (paren - 1) else none
    | _, _ => none

variable (around : Surroundings) (atoms : Array Atom)

def formHead? (index : Nat) : Option Nat :=
  (around.enclosing? index).bind (nextCode? atoms)

def formHeadNamed? (names : List String) (index : Nat) : Option Nat :=
  (formHead? around atoms index).filter fun head =>
    atoms[head]?.any fun a => names.any (Text.sameName a.symbol)

def defunHead? (index : Nat) : Option Nat :=
  formHeadNamed? around atoms ["defun", "defun-q"] index

/-- The head of the assignment around `index`, if the atom before it leaves room for a variable. -/
def setqHead? (index : Nat) : Option Nat :=
  (formHeadNamed? around atoms ["setq"] index).filter fun _ =>
    index != 0 && atoms[index - 1]?.any fun before =>
      !before.isQuote && (before.isPrimitive || Text.sameName before.symbol "setq")

def context (source head : Nat) : Context :=
  let links := (around.commentAhead? source).toList ++
    ((around.enclosing? head).bind (commentBehind? atoms)).toList
  ⟨links, links.any fun link => atoms[link]?.any fun a => holdsMarker a.symbol.toList⟩

def defunContext? (index : Nat) : Option Context :=
  ((defunHead? around atoms index).filter fun head => nextCode? atoms head == some index).map
    (context around atoms index)

def setqContext? (index : Nat) : Option Context :=
  (setqHead? around atoms index).map (context around atoms index)

/-- A name can be bound behind the head of a form, not in place of the head. -/
def canBind (index : Nat) : Bool :=
  index != 0 && !atoms[index - 1]?.any Atom.isLeftParen

def bindingContext? (index : Nat) : Option Context :=
  if canBind atoms index then
    (defunContext? around atoms index).or (setqContext? around atoms index)
  else none

def isExported (index : Nat) (asDefinition : Bool) : Bool :=
  canBind atoms index && decide (index < atoms.size) &&
    (if asDefinition then defunContext? (.scan atoms) atoms index
      else setqContext? (.scan atoms) atoms index).any Context.exported

def mayNameFunction (index : Nat) : Bool :=
  atoms[index]?.any (!·.isPrimitive) &&
    (previousCode? atoms index).any fun before =>
      atoms[before]?.any fun a =>
        if a.isLeftParen then before == 0 || !atoms[before - 1]?.any Atom.isQuote
        else a.isQuote || Text.sameName a.symbol "defun" || Text.sameName a.symbol "defun-q"

end LispIndex.Export

namespace LispIndex.Document

def symbolIndices (d : Document) : List Nat :=
  d.symbols.toList.flatMap (·.2)

def bindings (atoms : Array Atom) (indices : List Nat) : List (Nat × Export.Context) :=
  let around := Export.Surroundings.table atoms
  indices.filterMap fun index =>
    ((Export.bindingContext? around atoms index).filter (!·.links.isEmpty)).map (index, ·)

def mark (atoms : Array Atom) (binding : Nat × Export.Context) : Array Atom :=
  atoms.modify binding.1 fun a => { a with links := binding.2.links, exported := binding.2.exported }

/-- Records the comments beside every binding, going through the names in the given order; also
counts the exported ones. -/
def annotateAlong (d : Document) (order : List (String × List Nat)) : Document × Nat :=
  let found := bindings d.atoms (order.flatMap (·.2))
  ({ d with atoms := found.foldl mark d.atoms }, found.countP (·.2.exported))

def annotate (d : Document) : Document × Nat :=
  d.annotateAlong d.symbols.toList

def parse (native : String → Bool) (text : String) : Document :=
  (build native text).annotate.1

end LispIndex.Document
