import LispIndex.Form
import LispIndex.Token

/-!
Nesting: how the tokens of a text fall into forms. A left parenthesis opens a form, together with
the quote that touches it from the left; a right parenthesis closes the innermost one and is an
ordinary item where none is open. Forms that stay open end with the text.
-/

namespace LispIndex

/-- A form that is being read; its latest item comes first. -/
structure OpenForm where
  first : Nat
  items : List Node

/-- The forms open at a point of the text, innermost first, and the items outside all of them,
latest first. -/
structure Nesting where
  forms : List OpenForm
  top : List Node

namespace Nesting

def empty : Nesting := ⟨[], []⟩

def push (n : Nesting) (node : Node) : Nesting :=
  match n.forms with
  | [] => ⟨[], node :: n.top⟩
  | form :: outer => ⟨⟨form.first, node :: form.items⟩ :: outer, n.top⟩

def openForm (n : Nesting) (first : Nat) : Nesting :=
  ⟨⟨first, []⟩ :: n.forms, n.top⟩

def closeForm (n : Nesting) (stop : Nat) : Nesting :=
  match n.forms with
  | [] => n
  | form :: outer => push ⟨outer, n.top⟩ (.form ⟨form.first, stop⟩ form.items.reverse)

def read (n : Nesting) (index : Nat) : List Lexeme → Nesting
  | [] => n
  | lexeme :: rest =>
    match lexeme.token.kind, rest with
    | .quote, ⟨[], ⟨.leftParen, _⟩⟩ :: rest =>
      (((n.openForm index).push (.atom index)).push (.atom (index + 1))).read (index + 2) rest
    | .leftParen, rest => ((n.openForm index).push (.atom index)).read (index + 1) rest
    | .rightParen, rest => ((n.push (.atom index)).closeForm (index + 1)).read (index + 1) rest
    | _, rest => (n.push (.atom index)).read (index + 1) rest

def closeAll (n : Nesting) (stop : Nat) : Nesting :=
  n.forms.foldl (fun nesting _ => nesting.closeForm stop) n

end Nesting

def Form.ofLexemes (lexemes : List Lexeme) : Form :=
  ⟨⟨0, lexemes.length⟩,
    ((Nesting.empty.read 0 lexemes).closeAll lexemes.length).top.reverse⟩

end LispIndex
