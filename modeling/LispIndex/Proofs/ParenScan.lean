import LispIndex.Proofs.ExportMarks
import LispIndex.Proofs.Holders

/-!
The parenthesis around an atom. A scan backwards over the flat atoms, which counts parentheses,
finds the one that opens the form in which the tree has the atom, whatever parentheses are missing
or left over.
-/

namespace LispIndex

def Node.first : Node → Nat
  | .atom index => index
  | .form span _ => span.first

namespace Document

def IsGlyph (d : Document) (v : FormView) (i : Nat) : Prop :=
  v.isRoot = false ∧ ∃ place paren, d.OpensAt v.form place paren ∧
    (i = paren ∨ place = 1 ∧ i + 1 = paren)

/-- A scan has found the left parenthesis that opens a form, or none if it is the document. -/
def Encloses (d : Document) (v : FormView) (found : Option Nat) : Prop :=
  (v.isRoot = true → found = none) ∧
    (v.isRoot = false → ∃ place paren, d.OpensAt v.form place paren ∧ found = some paren)

/-- The scan from an atom finds the parenthesis of the form that holds the atom. From a glyph that
opens a form it finds that of the form around. -/
structure ScanAgrees (d : Document) : Prop where
  held : ∀ i < d.atoms.size, ∃ v, d.view.parentOfAtom? i = some v ∧ .atom i ∈ v.form.items
  inside : ∀ i v, d.view.parentOfAtom? i = some v → ¬ d.IsGlyph v i →
    d.Encloses v (Export.enclosingParen? d.atoms i)
  glyph : ∀ i v, d.view.parentOfAtom? i = some v → d.IsGlyph v i →
    ∃ outer, d.view.parentOf? v.form = some outer ∧
      .form v.form.span v.form.items ∈ outer.form.items ∧
      d.Encloses outer (Export.enclosingParen? d.atoms i)

section Scan

open Export

variable {d : Document} {i : Nat} (closed : Nat)

private theorem Passes.scan_right (right : d.Passes Atom.isRightParen i) :
    openParenBelow d.atoms closed (i + 1) = openParenBelow d.atoms (closed + 1) i := by
  obtain ⟨a, found, test⟩ := right
  rw [openParenBelow, found]
  exact if_pos test

private theorem Passes.scan_left (left : d.Passes Atom.isLeftParen i) :
    openParenBelow d.atoms closed (i + 1) =
      if closed = 0 then some i else openParenBelow d.atoms (closed - 1) i := by
  obtain ⟨a, found, test⟩ := left
  have other : ¬ a.isRightParen = true := by
    rw [Atom.isLeftParen, beq_iff_eq] at test
    simp [Atom.isRightParen, test]
  rw [openParenBelow, found]
  exact (if_neg other).trans (if_pos test)

private theorem scan_other (notLeft : ¬ d.Passes Atom.isLeftParen i)
    (notRight : ¬ d.Passes Atom.isRightParen i) :
    openParenBelow d.atoms closed (i + 1) = openParenBelow d.atoms closed i := by
  rw [openParenBelow]
  cases found : d.atoms[i]? with
  | none => rfl
  | some a =>
    have left : ¬ a.isLeftParen = true := fun test => notLeft ⟨a, found, test⟩
    have right : ¬ a.isRightParen = true := fun test => notRight ⟨a, found, test⟩
    exact (if_neg right).trans (if_neg left)

end Scan

theorem touches_iff {d : Document} {i : Nat} : d.Touches i ↔
    ∃ p, d.atoms[i]?.map Atom.stop = some p ∧ d.atoms[i + 1]?.map Atom.start = some p := by
  simp only [Touches, Option.map_eq_some_iff]
  constructor
  · rintro ⟨a, b, first, second, meet⟩
    exact ⟨a.stop, ⟨a, first, rfl⟩, b, second, meet.symm⟩
  · rintro ⟨p, ⟨a, first, rfl⟩, b, second, meet⟩
    exact ⟨a, b, first, second, meet.symm⟩

end Document

namespace Nesting

variable {lexemes : List Lexeme} {top : Bool} {first stop : Nat} {items : List Node} {node : Node}

/-- What stands before an item is read by itself. -/
theorem Items.before (read : Items lexemes top first stop items) (member : node ∈ items) :
    ∃ front, Items lexemes top first node.first front := by
  induction read with
  | none => cases member
  | atom top first i items before plain ih =>
    rcases List.mem_append.mp member with earlier | last
    · exact ih earlier
    · obtain rfl := List.mem_singleton.mp last
      exact ⟨items, before⟩
  | form top first i next k items glyphs inner before opening inside close ih _ =>
    rcases List.mem_append.mp member with earlier | last
    · exact ih earlier
    · obtain rfl := List.mem_singleton.mp last
      exact ⟨items, before⟩

theorem Rest.before (rest : Rest lexemes top first items) (member : node ∈ items) :
    ∃ front, Items lexemes top first node.first front := by
  cases rest with
  | closed _ _ _ read => exact read.before member
  | unclosed _ _ i next items glyphs inner before opening inside =>
    rcases List.mem_append.mp member with earlier | last
    · exact before.before earlier
    · obtain rfl := List.mem_singleton.mp last
      exact ⟨items, before⟩

/-- A form is its glyphs and a body, in which what stands before an item is read by itself. -/
theorem made_entered {f : Form} (made : Complete lexemes f ∨ Unfinished lexemes f) :
    ∃ next glyphs body, Opening lexemes f.span.first next glyphs ∧ f.items = glyphs ++ body ∧
      Body lexemes body ∧
      ∀ node ∈ body, ∃ front, Items lexemes false next node.first front := by
  rcases made with ⟨first, next, k, glyphs, inner, opening, inside, close⟩ |
    ⟨first, next, glyphs, inner, opening, inside⟩
  · refine ⟨next, glyphs, inner ++ [.atom k], opening, List.append_assoc .., inside.body close, ?_⟩
    intro node member
    rcases List.mem_append.mp member with earlier | last
    · exact inside.before earlier
    · obtain rfl := List.mem_singleton.mp last
      exact ⟨inner, inside⟩
  · exact ⟨next, glyphs, inner, opening, rfl, inside.body, fun node => inside.before⟩

end Nesting

namespace Document.Reads

open Export Nesting

variable {d : Document} {lexemes : List Lexeme} {top : Bool} {first next stop : Nat}
  {items glyphs body : List Node}

private theorem scan_quote (reads : d.Reads lexemes) (quoted : Quoted lexemes first)
    (closed : Nat) :
    openParenBelow d.atoms closed (first + 1) = openParenBelow d.atoms closed first := by
  apply scan_other
  · rw [reads.left, quoted.1]
    exact nofun
  · rw [reads.right, quoted.1]
    exact nofun

private theorem scan_opening (reads : d.Reads lexemes) (opening : Opening lexemes first next glyphs)
    (closed : Nat) : openParenBelow d.atoms closed next =
      if closed = 0 then some (next - 1) else openParenBelow d.atoms (closed - 1) first := by
  cases opening with
  | plain left => exact ((reads.left first).mpr left).scan_left closed
  | quoted quoted =>
    rw [((reads.left (first + 1)).mpr quoted.2.1).scan_left closed, reads.scan_quote quoted]
    rfl

/-- A scan passes over what stands between two items, forms included. Outside of all forms it takes
note of the right parentheses that close nothing. -/
theorem scan_items (reads : d.Reads lexemes) (read : Items lexemes top first stop items) :
    ∃ strays, (top = false → strays = 0) ∧ ∀ closed,
      openParenBelow d.atoms closed stop = openParenBelow d.atoms (closed + strays) first := by
  induction read with
  | none top first => exact ⟨0, fun _ => rfl, fun _ => rfl⟩
  | atom top first i items before plain ih =>
    obtain ⟨strays, none, scan⟩ := ih
    have notLeft : ¬ d.Passes Atom.isLeftParen i := mt (reads.left i).mp plain.notLeft
    by_cases right : d.Passes Atom.isRightParen i
    · refine ⟨1 + strays, ?_, ?_⟩
      · intro nested
        exact absurd ((reads.right i).mp right) (plain.notRight nested)
      · intro closed
        rw [right.scan_right, scan, Nat.add_assoc]
    · refine ⟨strays, none, ?_⟩
      intro closed
      rw [scan_other closed notLeft right, scan]
  | form top first i next k items glyphs inner before opening inside close outer within =>
    obtain ⟨strays, none, scan⟩ := outer
    obtain ⟨others, balanced, pass⟩ := within
    refine ⟨strays, none, ?_⟩
    intro closed
    rw [((reads.right k).mpr close).scan_right, pass, balanced rfl, Nat.add_zero,
      reads.scan_opening opening, if_neg (Nat.succ_ne_zero closed), Nat.add_sub_cancel, scan]

variable {f : Form} {v : FormView} {node : Node} {i place paren : Nat}

/-- The left parenthesis that opens a form is the last of its glyphs. -/
theorem opensAt_last (reads : d.Reads lexemes) (opening : Opening lexemes first next glyphs)
    (split : f.items = glyphs ++ body) (inside : Body lexemes body)
    (opens : d.OpensAt f place paren) : place + 1 = glyphs.length ∧ paren + 1 = next := by
  obtain ⟨left, found, -⟩ := opens
  rw [reads.left] at left
  rw [split] at found
  rcases getElem?_parts found with glyph | ⟨behind, -, within⟩
  · have bound := (List.getElem?_eq_some_iff.mp glyph).1
    cases opening with
    | plain start =>
      obtain rfl : place = 0 := by simpa using bound
      obtain rfl : first = paren := by simpa using glyph
      exact ⟨rfl, rfl⟩
    | quoted quoted =>
      obtain rfl | rfl : place = 0 ∨ place = 1 := by
        rw [List.length_cons, List.length_singleton] at bound
        omega
      · obtain rfl : first = paren := by simpa using glyph
        rw [quoted.1] at left
        cases left
      · obtain rfl : first + 1 = paren := by simpa using glyph
        exact ⟨rfl, rfl⟩
  · exact absurd left (inside.notLeft paren (List.mem_of_getElem? within))

private theorem isGlyph_of_mem (reads : d.Reads lexemes) (nested : f ∈ d.root.nested)
    (opening : Opening lexemes first next glyphs) (split : f.items = glyphs ++ body)
    (inside : Body lexemes body) (member : .atom i ∈ glyphs) : d.IsGlyph (d.view.child f) i := by
  obtain ⟨place, paren, opens⟩ := reads.exists_opened nested
  obtain ⟨size, last⟩ := reads.opensAt_last opening split inside opens
  refine ⟨rfl, place, paren, opens, ?_⟩
  cases opening with
  | plain left =>
    obtain rfl : i = first := by simpa using member
    exact .inl (Nat.succ.inj last).symm
  | quoted quoted =>
    obtain rfl | rfl : i = first ∨ i = first + 1 := by simpa using member
    · exact .inr ⟨Nat.succ.inj size, (Nat.succ.inj last).symm⟩
    · exact .inl (Nat.succ.inj last).symm

/-- From a glyph that opens a form, a scan goes on as from the start of the form. -/
theorem scan_glyph (reads : d.Reads lexemes) (nested : f ∈ d.root.nested)
    (glyph : d.IsGlyph (d.view.child f) i) :
    openParenBelow d.atoms 0 i = openParenBelow d.atoms 0 f.span.first := by
  obtain ⟨next, glyphs, body, opening, split, inside, -⟩ := made_entered (reads.rest.made f nested)
  obtain ⟨-, place, paren, opens, here⟩ := glyph
  obtain ⟨size, last⟩ := reads.opensAt_last opening split inside opens
  generalize f.span.first = first at opening
  cases opening with
  | plain left =>
    rcases here with rfl | ⟨second, -⟩
    · rw [Nat.succ.inj last]
    · rw [second] at size
      cases size
  | quoted quoted =>
    rcases here with rfl | ⟨-, before⟩
    · rw [Nat.succ.inj last, reads.scan_quote quoted]
    · obtain rfl : i = first := by omega
      rfl

/-- From an item behind the glyphs of a form, a scan finds the parenthesis that opens it. -/
theorem encloses (reads : d.Reads lexemes) (member : v ∈ d.view.subtree)
    (item : node ∈ v.form.items) (apart : ∀ i, node = .atom i → ¬ d.IsGlyph v i) :
    d.Encloses v (openParenBelow d.atoms 0 node.first) := by
  rw [FormView.subtree_eq] at member
  rcases List.mem_cons.mp member with rfl | inside
  · refine ⟨fun _ => ?_, by rintro ⟨⟩⟩
    obtain ⟨front, read⟩ := reads.rest.before item
    obtain ⟨strays, -, scan⟩ := reads.scan_items read
    rw [scan, openParenBelow]
  · obtain ⟨f, nested, rfl⟩ := List.mem_map.mp inside
    refine ⟨by rintro ⟨⟩, fun _ => ?_⟩
    obtain ⟨next, glyphs, body, opening, split, within, enters⟩ :=
      made_entered (reads.rest.made f nested)
    obtain ⟨place, paren, opens⟩ := reads.exists_opened nested
    obtain ⟨-, last⟩ := reads.opensAt_last opening split within opens
    have behind : node ∈ body := by
      rw [show (d.view.child f).form.items = glyphs ++ body from split] at item
      rcases List.mem_append.mp item with glyph | behind
      · cases node with
        | atom i =>
          have isGlyph := reads.isGlyph_of_mem nested opening split within glyph
          exact absurd isGlyph (apart i rfl)
        | form span items => exact absurd glyph (opening.not_form span items)
      · exact behind
    obtain ⟨front, read⟩ := enters node behind
    obtain ⟨strays, balanced, scan⟩ := reads.scan_items read
    refine ⟨place, paren, opens, ?_⟩
    rw [scan, balanced rfl, reads.scan_opening opening, if_pos rfl, ← last, Nat.add_sub_cancel]

theorem scanAgrees (reads : d.Reads lexemes) (neat : d.root.Neat)
    (whole : d.root.span = ⟨0, d.atoms.size⟩) : d.ScanAgrees := by
  have bound_iff (i : Nat) : i ∈ d.root.leaves ↔ i < d.atoms.size := by
    rw [← neat.holds_iff, whole]
    simp [Span.holds]
  have scan (i : Nat) (inside : i ∈ d.root.leaves) :
      enclosingParen? d.atoms i = openParenBelow d.atoms 0 i := by
    rw [enclosingParen?, Nat.min_eq_left (Nat.le_of_lt ((bound_iff i).mp inside))]
  constructor
  · intro i bound
    have found := FormView.parentOfAtom?_of_mem (v := d.view) neat ((bound_iff i).mpr bound)
    exact ⟨_, found, (FormView.of_parentOfAtom? (v := d.view) neat found).2.2⟩
  · intro i v found apart
    obtain ⟨inside, member, held⟩ := FormView.of_parentOfAtom? (v := d.view) neat found
    rw [scan i inside]
    apply reads.encloses member held
    rintro j ⟨⟩
    exact apart
  · intro i v found glyph
    obtain ⟨inside, member, -⟩ := FormView.of_parentOfAtom? (v := d.view) neat found
    rw [FormView.subtree_eq] at member
    rcases List.mem_cons.mp member with rfl | deeper
    · cases glyph.1
    · obtain ⟨f, nested, rfl⟩ := List.mem_map.mp deeper
      obtain ⟨outer, reached, result, item⟩ := FormView.parentOf?_spec (v := d.view) neat nested
      refine ⟨outer, result, item, ?_⟩
      rw [scan i inside, reads.scan_glyph nested glyph]
      apply reads.encloses reached item
      rintro j ⟨⟩

/-- Marks neither change which tokens the atoms are nor where they stand. -/
theorem annotate (reads : d.Reads lexemes) : d.annotate.1.Reads lexemes := by
  have passes (test : Atom → Bool) (blind : ∀ a c, test (Atom.marked a c) = test a) (i : Nat) :
      d.annotate.1.Passes test i ↔ d.Passes test i := by
    rw [Passes, Passes, ← Option.map_eq_some_iff, ← Option.map_eq_some_iff,
      d.annotate_map test blind]
  have touches (i : Nat) : d.annotate.1.Touches i ↔ d.Touches i := by
    rw [touches_iff, touches_iff, d.annotate_map _ fun _ _ => rfl, d.annotate_map _ fun _ _ => rfl]
  constructor
  · exact reads.rest
  · intro i
    rw [passes _ fun _ _ => rfl, reads.left]
  · intro i
    rw [passes _ fun _ _ => rfl, reads.right]
  · intro i
    rw [passes _ fun _ _ => rfl, passes _ fun _ _ => rfl, touches, reads.quoted]

end Document.Reads

/-- The scan for the parenthesis around an atom and the tree agree on every text, whether exported
names are marked or not. -/
theorem build_scan_agrees (native : String → Bool) (text : String) :
    (Document.build native text).ScanAgrees ∧ (Document.parse native text).ScanAgrees := by
  have reads := build_reads native text
  have neat := build_neat native text
  constructor
  · exact reads.scanAgrees neat (build_sourced native text).whole
  · exact reads.annotate.scanAgrees neat (parse_sourced native text).whole

end LispIndex
