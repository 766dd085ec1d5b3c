import LispIndex.Document

/-!
Views: a form together with the atoms it refers to. The view of a whole document is marked as the
root, since it has no opening glyph to step over.
-/

namespace LispIndex

structure FormView where
  atoms : Array Atom
  form : Form
  isRoot : Bool

inductive Piece where
  | atom (a : Atom)
  | form (v : FormView)

namespace FormView

def child (v : FormView) (form : Form) : FormView :=
  ⟨v.atoms, form, false⟩

def children (v : FormView) : List FormView :=
  v.form.children.map v.child

theorem weight_lt_of_mem {v c : FormView} (member : c ∈ v.children) :
    c.form.weight < v.form.weight := by
  obtain ⟨form, inside, rfl⟩ := List.mem_map.mp member
  exact Form.weight_lt_of_mem inside

def piece? (v : FormView) : Node → Option Piece
  | .atom index => v.atoms[index]?.map .atom
  | .form span items => some (.form (v.child ⟨span, items⟩))

def pieces (v : FormView) : List Piece :=
  v.form.items.filterMap v.piece?

def flatten (v : FormView) : List Atom :=
  (v.atoms.extract v.form.span.first v.form.span.stop).toList

def first? (v : FormView) : Option Atom :=
  if v.form.span.first < v.form.span.stop then v.atoms[v.form.span.first]? else none

def last? (v : FormView) : Option Atom :=
  if v.form.span.first < v.form.span.stop then v.atoms[v.form.span.stop - 1]? else none

def textLength (v : FormView) : Nat :=
  v.flatten.foldl (fun total a => total + a.length) 0

/-- Where it starts; a document starts at the origin whatever its first atom is. -/
def start (v : FormView) : Position :=
  if v.isRoot then .origin else (v.first?.map Atom.start).getD .origin

def lastLine (v : FormView) : Nat :=
  (v.last?.map Atom.lastLine).getD 0

def range (v : FormView) : Range :=
  match v.first?, v.last? with
  | some first, some last => ⟨first.start, last.stop⟩
  | _, _ => .empty

def contains (v : FormView) (p : Position) : Bool :=
  !v.form.items.isEmpty && v.range.contains p

/-- What the form starts with, behind its opening glyph and leaving out comments, quotes and left
parentheses. -/
def headPiece? (v : FormView) : Option Piece :=
  ((if v.isRoot then v.form.items else v.form.items.drop 1).filterMap v.piece?).find? fun
    | .atom a => !(a.isComment || a.isLeftParen || a.isQuote)
    | .form _ => true

def head? (v : FormView) : Option Atom :=
  match v.headPiece? with
  | some (.atom a) => some a
  | _ => none

/-- The lowercased head, or a word in stars for a form that has no name there. -/
def typeName (v : FormView) : String :=
  match v.headPiece? with
  | none => "*unknown*"
  | some (.form _) => "*invalid*"
  | some (.atom a) =>
    if a.symbol.isEmpty then "*invalid*" else if a.isPrimitive then "*primitive*" else a.name

/-- Whether an item counts as a key: comments, glyphs and blank atoms do not. -/
def isKey (v : FormView) : Node → Bool
  | .form _ _ => true
  | .atom index => v.atoms[index]?.any fun a =>
    !a.isComment && !(a.isQuote || a.isLeftParen || a.isRightParen || a.symbol == ".") &&
      !a.symbol.toList.all Text.isBlank

/-- The places of the keys among the items, the first item left out. -/
def keyIndices (v : FormView) : List Nat :=
  (v.form.items.zipIdx.drop 1).filterMap fun (node, place) => if v.isKey node then some place else none

def keyIndex? (v : FormView) (n : Nat) : Option Nat :=
  v.keyIndices[n]?

def item? (v : FormView) (place : Nat) : Option Piece :=
  v.form.items[place]?.bind v.piece?

/-- The `n`th key: in `(defun name (args) ...)` the head, the name, the arguments. -/
def key? (v : FormView) (n : Nat) : Option Piece :=
  (v.keyIndex? n).bind v.item?

def text (v : FormView) : String :=
  s!"ContainerRef \x7b flat_range: {v.form.span.first}..{v.form.span.stop}, items: " ++
    s!"{v.form.items.length}, is_root: {v.isRoot} \x7d"

def subtree (v : FormView) : List FormView :=
  v :: (Form.preorder #[] v.form.children).map v.child

end FormView

def Document.view (d : Document) : FormView :=
  ⟨d.atoms, d.root, true⟩

end LispIndex
