import LispIndex.Atom
import LispIndex.Document.LineEnding
import LispIndex.Form.Nesting
import Std.Data.TreeMap

/-!
Documents: the atoms of a text, the form they make up, and where each name occurs. Names that the
language itself defines, told by the function `native`, are left out of the table.
-/

namespace LispIndex

abbrev SymbolTable := Std.TreeMap String (List Nat)

structure Document where
  atoms : Array Atom
  root : Form
  symbols : SymbolTable
  lineEnding : LineEnding

def placeAtoms (placed : Array Atom) (start : Position) : List Lexeme → Array Atom
  | [] => placed
  | ⟨gap, token⟩ :: rest =>
    let here := start.advance gap
    placeAtoms (placed.push { symbol := String.ofList token.text, start := here, index := placed.size })
      (here.advance token.text) rest

namespace SymbolTable

def record (index : Nat) (name : String) (table : SymbolTable) : SymbolTable :=
  table.alter name fun found => some (index :: found.getD [])

def ofAtoms (native : String → Bool) (atoms : Array Atom) : SymbolTable :=
  atoms.foldr (fun a table => if a.isTracked native then record a.index a.name table else table) ∅

end SymbolTable

namespace Document

def build (native : String → Bool) (text : String) : Document :=
  let lexemes := (Lexing.ofText text.toList).lexemes
  let atoms := placeAtoms #[] .origin lexemes
  { atoms
    root := .ofLexemes lexemes
    symbols := .ofAtoms native atoms
    lineEnding := .detect text.toList }

def occurrences (d : Document) (key : String) : List Nat :=
  match d.symbols[key]? with
  | some found => found
  | none => d.symbols.getD (Text.lower key) []

/-- The blanks written between two places: a line ending for every line, then spaces. -/
def padding (ending : LineEnding) (here next : Position) : List Char :=
  (List.replicate (next.line - here.line) ending.chars).flatten ++
    List.replicate (next.character - if here.line < next.line then 0 else here.character) ' '

/-- The text written back from the places of the atoms. Blanks that are no line endings become
spaces, and those behind the last atom are lost. -/
def toText (d : Document) : String :=
  let atoms := d.atoms.toList
  String.ofList (((Position.origin :: atoms.map Atom.stop).zip atoms).flatMap fun (here, a) =>
    padding d.lineEnding here a.start ++ a.symbol.toList)

end Document

end LispIndex
