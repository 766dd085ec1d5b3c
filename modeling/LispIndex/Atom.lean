import LispIndex.Atom.Number
import LispIndex.Position
import LispIndex.Text.Case

/-!
Atoms: the tokens of a document with their places. What an atom is can be read off its text alone.
Whether a comment beside it exports it is recorded in its last two fields.
-/

namespace LispIndex

structure Atom where
  symbol : String
  start : Position
  index : Nat
  /-- The comments that belong to the binding it names. -/
  links : List Nat := []
  exported : Bool := false
deriving DecidableEq, Inhabited

/-- Literals and punctuation, which never name anything: glyphs, comments, strings, `T`, `nil` and
numbers. -/
def isPrimitiveText (text : String) : Bool :=
  match text.toList with
  | [] => false
  | c :: _ =>
    c == '\x27' || c == '(' || c == ')' || c == '.' || c == ';' || c == '\x22' ||
      Text.sameName text "t" || Text.sameName text "nil" || Number.isNumber text.toList

namespace Atom

def stop (a : Atom) : Position :=
  a.start.advance a.symbol.toList

def range (a : Atom) : Range :=
  ⟨a.start, a.stop⟩

def contains (a : Atom) (p : Position) : Bool :=
  a.range.contains p

def length (a : Atom) : Nat :=
  a.symbol.length

def line (a : Atom) : Nat :=
  a.start.line

def lastLine (a : Atom) : Nat :=
  a.stop.line

def isComment (a : Atom) : Bool :=
  [';'].isPrefixOf a.symbol.toList

def isBlockComment (a : Atom) : Bool :=
  [';', '|'].isPrefixOf a.symbol.toList

def isLineComment (a : Atom) : Bool :=
  a.isComment && !a.isBlockComment

def isLeftParen (a : Atom) : Bool :=
  a.symbol == "("

def isRightParen (a : Atom) : Bool :=
  a.symbol == ")"

def isQuote (a : Atom) : Bool :=
  a.symbol == "\x27"

def isString (a : Atom) : Bool :=
  ['\x22'].isPrefixOf a.symbol.toList

def isNumber (a : Atom) : Bool :=
  Number.isNumber a.symbol.toList

def isPrimitive (a : Atom) : Bool :=
  isPrimitiveText a.symbol

def name (a : Atom) : String :=
  Text.lower a.symbol

/-- Whether the atom is an occurrence of a name that the language does not define. -/
def isTracked (native : String → Bool) (a : Atom) : Bool :=
  !a.isPrimitive && !native a.name

end Atom

end LispIndex
