/-!
Forms. A form is a parenthesised list with its own glyphs among its items; the whole document is
one too, without glyphs. Items are atoms, given by their place in the document, or nested forms,
and every form records the stretch of atoms inside it.
-/

namespace LispIndex

/-- The atoms from `first` up to, not including, `stop`. -/
structure Span where
  first : Nat
  stop : Nat
deriving DecidableEq, Inhabited

def Span.holds (s : Span) (index : Nat) : Bool :=
  decide (s.first ≤ index) && decide (index < s.stop)

inductive Node where
  | atom (index : Nat)
  | form (span : Span) (items : List Node)

structure Form where
  span : Span
  items : List Node

def Node.form? : Node → Option Form
  | .atom _ => none
  | .form span items => some ⟨span, items⟩

def Node.index? : Node → Option Nat
  | .atom index => some index
  | .form _ _ => none

def Form.children (f : Form) : List Form :=
  f.items.filterMap Node.form?

def Form.text (f : Form) : String :=
  s!"Container \x7b first: {f.span.first}, end: {f.span.stop}, items: {f.items.length} \x7d"

mutual

def Node.weight : Node → Nat
  | .atom _ => 1
  | .form _ items => 1 + Node.weights items

def Node.weights : List Node → Nat
  | [] => 0
  | node :: nodes => node.weight + Node.weights nodes

end

theorem Node.weights_append (left right : List Node) :
    Node.weights (left ++ right) = Node.weights left + Node.weights right := by
  induction left with
  | nil => simp [Node.weights]
  | cons node nodes ih => simp [Node.weights, ih, Nat.add_assoc]

def Form.weight (f : Form) : Nat :=
  1 + Node.weights f.items

def Form.weights : List Form → Nat
  | [] => 0
  | form :: forms => form.weight + Form.weights forms

theorem Form.weights_append (left right : List Form) :
    Form.weights (left ++ right) = Form.weights left + Form.weights right := by
  induction left with
  | nil => simp [Form.weights]
  | cons form forms ih => simp [Form.weights, ih, Nat.add_assoc]

theorem Form.weight_children (f : Form) : Form.weights f.children < f.weight := by
  have bound : ∀ nodes : List Node,
      Form.weights (nodes.filterMap Node.form?) ≤ Node.weights nodes := by
    intro nodes
    induction nodes with
    | nil => simp [Node.weights, Form.weights]
    | cons node nodes ih =>
      cases node <;>
        simp only [List.filterMap_cons, Node.form?, Node.weights, Node.weight, Form.weights,
          Form.weight] <;> omega
  have := bound f.items
  simp only [Form.weight, Form.children]
  omega

theorem Form.weight_lt_of_mem {f child : Form} (member : child ∈ f.children) :
    child.weight < f.weight := by
  have total := f.weight_children
  have bound : ∀ forms : List Form, child ∈ forms → child.weight ≤ Form.weights forms := by
    intro forms member
    induction forms with
    | nil => cases member
    | cons form forms ih =>
      rw [Form.weights]
      cases member with
      | head => omega
      | tail _ member => have := ih member; omega
  have := bound _ member
  omega

def Form.preorder (found : Array Form) : List Form → List Form
  | [] => found.toList
  | form :: rest => Form.preorder (found.push form) (form.children ++ rest)
termination_by forms => Form.weights forms
decreasing_by
  have := form.weight_children
  simp only [Form.weights_append, Form.weights]
  omega

end LispIndex
