/-!
Places in a text. A position counts the line feeds before a character and the characters since the
last of them; `advance` moves a position over a piece of text.
-/

namespace LispIndex

structure Position where
  line : Nat
  character : Nat
deriving DecidableEq, Inhabited

namespace Position

def origin : Position := ⟨0, 0⟩

/-- Reading order: by line, then by character. -/
instance : LE Position where
  le p q := p.line < q.line ∨ p.line = q.line ∧ p.character ≤ q.character

theorem le_def (p q : Position) :
    p ≤ q ↔ p.line < q.line ∨ p.line = q.line ∧ p.character ≤ q.character := Iff.rfl

instance (p q : Position) : Decidable (p ≤ q) :=
  decidable_of_iff _ (le_def p q).symm

def order (p q : Position) : Ordering :=
  if p = q then .eq else if p ≤ q then .lt else .gt

def step (p : Position) (c : Char) : Position :=
  if c = '\n' then ⟨p.line + 1, 0⟩ else ⟨p.line, p.character + 1⟩

def advance (p : Position) (text : List Char) : Position :=
  text.foldl step p

theorem advance_append (p : Position) (left right : List Char) :
    p.advance (left ++ right) = (p.advance left).advance right :=
  List.foldl_append

def text (p : Position) : String :=
  s!"{p.line}:{p.character}"

end Position

/-- The places from `start` to `stop`, both included. -/
structure Range where
  start : Position
  stop : Position
deriving DecidableEq, Inhabited

namespace Range

def empty : Range := ⟨.origin, .origin⟩

def contains (r : Range) (p : Position) : Bool :=
  decide (r.start ≤ p) && decide (p ≤ r.stop)

def isSingleLine (r : Range) : Bool :=
  r.start.line == r.stop.line

def text (r : Range) : String :=
  r.start.text ++ "-" ++ r.stop.text

end Range

end LispIndex
