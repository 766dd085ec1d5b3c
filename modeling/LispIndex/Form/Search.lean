import LispIndex.Form.View

/-!
Searching a form: the atom or the innermost form at a position, the form that holds an atom or a
form directly, and the forms with a given head.
-/

namespace LispIndex.FormView

/-- The first atom at `p`, entering the first form there and no other. -/
def atomIn (atoms : Array Atom) (p : Position) : List Node → Option Atom
  | [] => none
  | .atom index :: rest =>
    match atoms[index]? with
    | some a => if a.contains p then some a else atomIn atoms p rest
    | none => atomIn atoms p rest
  | .form span items :: rest =>
    if contains ⟨atoms, ⟨span, items⟩, false⟩ p then atomIn atoms p items
    else atomIn atoms p rest
termination_by nodes => Node.weights nodes
decreasing_by all_goals simp only [Node.weights, Node.weight]; omega

def atomAt? (v : FormView) (p : Position) : Option Atom :=
  if v.contains p then atomIn v.atoms p v.form.items else none

/-- Follows the last child at `p` down from `v`; the result is the last form entered, with the form
that holds it. -/
def descendTo (p : Position) (found : Option (FormView × FormView)) (v : FormView) :
    Option (FormView × FormView) :=
  match next : (v.children.filter (·.contains p)).getLast? with
  | none => found
  | some c =>
    have := weight_lt_of_mem (List.mem_filter.mp (List.mem_of_getLast? next)).1
    descendTo p (some (v, c)) c
termination_by v.form.weight

def innermostAt? (v : FormView) (p : Position) : Option (FormView × FormView) :=
  if v.contains p then descendTo p none v else none

def formAt? (v : FormView) (p : Position) : Option FormView :=
  (v.innermostAt? p).map (·.2)

def outerFormAt? (v : FormView) (p : Position) : Option FormView :=
  (v.innermostAt? p).map (·.1)

def holder (v : FormView) (index : Nat) : FormView :=
  match next : v.children.find? (·.form.span.holds index) with
  | none => v
  | some c =>
    have := weight_lt_of_mem (List.mem_of_find?_eq_some next)
    c.holder index
termination_by v.form.weight

def parentOfAtom? (v : FormView) (index : Nat) : Option FormView :=
  if v.form.span.holds index then some (v.holder index) else none

/-- Follows the children that hold the first atom of `span` until one has that span. -/
def holderOf? (v : FormView) (span : Span) : Option FormView :=
  match next : v.children.find? (·.form.span.holds span.first) with
  | none => none
  | some c =>
    have := weight_lt_of_mem (List.mem_of_find?_eq_some next)
    if c.form.span = span then some v else c.holderOf? span
termination_by v.form.weight

def parentOf? (v : FormView) (target : Form) : Option FormView :=
  if target.items.isEmpty || !v.form.span.holds target.span.first then none
  else v.holderOf? target.span

def parentOfPiece? (v : FormView) : Piece → Option FormView
  | .atom a => v.parentOfAtom? a.index
  | .form target => v.parentOf? target.form

structure Findings where
  forms : Array FormView
  heads : Array Atom

def Findings.empty : Findings := ⟨#[], #[]⟩

/-- A test of heads. Its answer may depend on the heads that it was put to before. -/
abbrev HeadTest := Array Atom → Atom → Bool

def Findings.visit (found : Findings) (accepts : HeadTest) (v : FormView) : Findings × Bool :=
  match v.head? with
  | none => (found, false)
  | some a =>
    if accepts found.heads a then (⟨found.forms.push v, found.heads.push a⟩, true)
    else (⟨found.forms, found.heads.push a⟩, false)

/-- Searches a forest. Without `deep`, what lies inside a form that was found is left out. -/
def searchFrom (accepts : HeadTest) (deep : Bool) (outer : FormView) (found : Findings) :
    List Form → Findings
  | [] => found
  | form :: rest =>
    let visited := found.visit accepts (outer.child form)
    if visited.2 && !deep then searchFrom accepts deep outer visited.1 rest
    else searchFrom accepts deep outer visited.1 (form.children ++ rest)
termination_by forms => Form.weights forms
decreasing_by
  · simp only [Form.weights, Form.weight]
    omega
  · have := form.weight_children
    simp only [Form.weights_append, Form.weights]
    omega

/-- The forms of the subtree whose head is accepted. A document is not among them itself. -/
def searchWith (v : FormView) (accepts : HeadTest) (deep : Bool) : Findings :=
  searchFrom accepts deep v .empty (if v.isRoot then v.form.children else [v.form])

@[inherit_doc searchWith]
def search (v : FormView) (accepts : Atom → Bool) (deep : Bool) : Findings :=
  v.searchWith (fun _ => accepts) deep

end LispIndex.FormView
