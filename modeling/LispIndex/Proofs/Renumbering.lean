import LispIndex.Proofs.FormGrammar

/-!
Renumbering the atoms of a tree. Some atoms may be left out; the others keep their order and stay
next to each other. Reading lexemes commutes with it, as long as those that are left out are neither
parentheses nor quotes and leave a gap where they stood.
-/

namespace LispIndex

/-- New numbers for atoms, counted on at every atom that is not left out. -/
structure Renumbering where
  drops : Nat → Bool
  number : Nat → Nat
  next : ∀ i, number (i + 1) = if drops i then number i else number i + 1

namespace Renumbering

variable {r : Renumbering} {i : Nat}

theorem next_kept (kept : r.drops i = false) : r.number (i + 1) = r.number i + 1 := by
  rw [r.next, kept, if_neg Bool.false_ne_true]

theorem next_dropped (dropped : r.drops i = true) : r.number (i + 1) = r.number i := by
  rw [r.next, if_pos dropped]

def shift (count : Nat) : Renumbering where
  drops _ := false
  number i := i + count
  next i := Nat.add_right_comm i 1 count

def without (drops : Nat → Bool) : Renumbering where
  drops
  number i := (List.range i).countP (!drops ·)
  next i := by
    rw [List.range_succ, List.countP_append, List.countP_singleton]
    cases drops i <;> rfl

private theorem le_number (r : Renumbering) (i j : Nat) : r.number i ≤ r.number (i + j) := by
  induction j with
  | zero => exact Nat.le_refl _
  | succ j ih =>
    rw [← Nat.add_assoc, r.next]
    split <;> omega

section Drops

variable {α : Type} {test : α → Bool} {value : α} {values : List α}

/-- Of some values, the first of which has the number `i`, those that pass the test are left out. -/
def Drops (r : Renumbering) (test : α → Bool) (i : Nat) (values : List α) : Prop :=
  ∀ j, r.drops (i + j) = values[j]?.any test

theorem Drops.first (drops : r.Drops test i (value :: values)) : r.drops i = test value :=
  drops 0

theorem Drops.rest (drops : r.Drops test i (value :: values)) : r.Drops test (i + 1) values := by
  intro j
  rw [Nat.add_assoc, Nat.add_comm 1]
  exact drops (j + 1)

/-- A value that stays is found among those that stay under its new number. -/
theorem Drops.getElem?_filter {j n : Nat} (drops : r.Drops test i values)
    (kept : r.drops (i + j) = false) (place : r.number (i + j) = r.number i + n) :
    (values.filter (!test ·))[n]? = values[j]? := by
  induction values generalizing i j n with
  | nil => rfl
  | cons value values ih =>
    have first := drops.first
    cases j with
    | zero =>
      obtain rfl : n = 0 := Nat.left_eq_add.mp place
      have stays : test value = false := first.symm.trans kept
      rw [List.filter_cons_of_pos (by simp [stays])]
      rfl
    | succ j =>
      rw [Nat.add_comm j, ← Nat.add_assoc] at kept place
      cases passes : test value with
      | true =>
        rw [← r.next_dropped (first.trans passes)] at place
        rw [List.filter_cons_of_neg (by simp [passes]), ih drops.rest kept place]
        rfl
      | false =>
        have next := r.next_kept (first.trans passes)
        have later := r.le_number (i + 1) j
        obtain ⟨m, rfl⟩ : ∃ m, n = m + 1 := ⟨n - 1, by omega⟩
        rw [List.filter_cons_of_pos (by simp [passes]), List.getElem?_cons_succ,
          ih drops.rest kept (by omega)]
        rfl

end Drops

end Renumbering

mutual

def Node.renumber? (r : Renumbering) : Node → Option Node
  | .atom index => if r.drops index then none else some (.atom (r.number index))
  | .form span items =>
    some (.form ⟨r.number span.first, r.number span.stop⟩ (Node.renumber r items))

def Node.renumber (r : Renumbering) : List Node → List Node
  | [] => []
  | node :: rest => (node.renumber? r).toList ++ Node.renumber r rest

end

def Form.renumber (r : Renumbering) (f : Form) : Form :=
  ⟨⟨r.number f.span.first, r.number f.span.stop⟩, Node.renumber r f.items⟩

namespace Node

variable (r : Renumbering)

private theorem renumber_eq (items : List Node) :
    renumber r items = items.filterMap (renumber? r) := by
  induction items with
  | nil => rfl
  | cons node rest ih =>
    rw [renumber, ih, List.filterMap_cons]
    cases node.renumber? r <;> rfl

theorem renumber_reverse (items : List Node) :
    renumber r items.reverse = (renumber r items).reverse := by
  rw [renumber_eq, renumber_eq, List.filterMap_reverse]

variable {r}

theorem renumber_some {node other : Node} (stays : node.renumber? r = some other)
    (rest : List Node) : renumber r (node :: rest) = other :: renumber r rest := by
  rw [renumber, stays]
  rfl

theorem renumber_none {node : Node} (gone : node.renumber? r = none) (rest : List Node) :
    renumber r (node :: rest) = renumber r rest := by
  rw [renumber, gone]
  rfl

theorem renumber_kept {index : Nat} (kept : r.drops index = false) (rest : List Node) :
    renumber r (.atom index :: rest) = .atom (r.number index) :: renumber r rest :=
  renumber_some (by rw [renumber?, kept]; rfl) rest

theorem renumber_dropped {index : Nat} (dropped : r.drops index = true) (rest : List Node) :
    renumber r (.atom index :: rest) = renumber r rest :=
  renumber_none (by rw [renumber?, dropped]; rfl) rest

theorem renumber_form (span : Span) (items rest : List Node) :
    renumber r (.form span items :: rest) =
      .form ⟨r.number span.first, r.number span.stop⟩ (renumber r items) :: renumber r rest :=
  rfl

end Node

def OpenForm.renumber (r : Renumbering) (form : OpenForm) : OpenForm :=
  ⟨r.number form.first, Node.renumber r form.items⟩

namespace Nesting

def renumber (r : Renumbering) (base : List Node) (n : Nesting) : Nesting :=
  ⟨n.forms.map (OpenForm.renumber r), Node.renumber r n.top ++ base⟩

variable {r : Renumbering} (base : List Node) (n : Nesting)

private theorem renumber_push {node other : Node} (kept : node.renumber? r = some other) :
    (n.push node).renumber r base = (n.renumber r base).push other := by
  obtain ⟨forms, top⟩ := n
  cases forms <;> simp [push, renumber, OpenForm.renumber, Node.renumber, kept]

private theorem renumber_push_atom {i : Nat} (kept : r.drops i = false) :
    (n.push (.atom i)).renumber r base = (n.renumber r base).push (.atom (r.number i)) :=
  renumber_push base n (by rw [Node.renumber?, kept]; rfl)

private theorem renumber_push_dropped {i : Nat} (dropped : r.drops i = true) :
    (n.push (.atom i)).renumber r base = n.renumber r base := by
  obtain ⟨forms, top⟩ := n
  cases forms <;> simp [push, renumber, OpenForm.renumber, Node.renumber_dropped dropped]

private theorem renumber_openForm (first : Nat) :
    (n.openForm first).renumber r base = (n.renumber r base).openForm (r.number first) :=
  rfl

private theorem renumber_closeForm (stop : Nat) :
    (n.closeForm stop).renumber r base = (n.renumber r base).closeForm (r.number stop) := by
  obtain ⟨forms, top⟩ := n
  cases forms with
  | nil => rfl
  | cons form outer =>
    have closed : (Node.form ⟨form.first, stop⟩ form.items.reverse).renumber? r =
        some (.form ⟨r.number form.first, r.number stop⟩ (Node.renumber r form.items).reverse) := by
      rw [Node.renumber?, Node.renumber_reverse]
    exact renumber_push base ⟨outer, top⟩ closed

theorem renumber_closeAll (stop : Nat) :
    (n.closeAll stop).renumber r base = (n.renumber r base).closeAll (r.number stop) := by
  have each (forms : List OpenForm) (n : Nesting) :
      (forms.foldl (fun nesting _ => nesting.closeForm stop) n).renumber r base =
        (forms.map (OpenForm.renumber r)).foldl
          (fun nesting _ => nesting.closeForm (r.number stop)) (n.renumber r base) := by
    induction forms generalizing n with
    | nil => rfl
    | cons form outer ih => rw [List.foldl_cons, ih, renumber_closeForm]; rfl
  exact each n.forms n

/-- Lexemes from the atom `i` on, and those of them that stay. What stands in the place of lexemes
that are left out is a gap, so that a lexeme touches the one before it as it did if that one stayed
(`tight`), and not otherwise. -/
inductive Thinned (drops : Nat → Bool) : Bool → Nat → List Lexeme → List Lexeme → Prop
  | nil (tight : Bool) (i : Nat) : Thinned drops tight i [] []
  | keep (tight : Bool) (i : Nat) (gap other : List Char) (token : Token) (rest kept : List Lexeme)
      (stays : drops i = false) (gaps : other = [] ↔ tight = true ∧ gap = [])
      (more : Thinned drops true (i + 1) rest kept) :
      Thinned drops tight i (⟨gap, token⟩ :: rest) (⟨other, token⟩ :: kept)
  | skip (tight : Bool) (i : Nat) (lexeme : Lexeme) (rest kept : List Lexeme)
      (goes : drops i = true) (left : lexeme.token.kind ≠ .leftParen)
      (right : lexeme.token.kind ≠ .rightParen) (quote : lexeme.token.kind ≠ .quote)
      (more : Thinned drops false (i + 1) rest kept) : Thinned drops tight i (lexeme :: rest) kept

namespace Thinned

variable {tight : Bool} {i : Nat} {lexemes kept : List Lexeme}

private theorem length (thinned : Thinned r.drops tight i lexemes kept) :
    r.number i + kept.length = r.number (i + lexemes.length) := by
  induction thinned with
  | nil => rfl
  | keep tight i gap other token rest kept stays gaps more ih =>
    rw [r.next_kept stays] at ih
    rw [List.length_cons, List.length_cons, ← Nat.add_assoc, Nat.add_right_comm (r.number i), ih,
      Nat.add_right_comm i, Nat.add_assoc]
  | skip tight i lexeme rest kept goes left right quote more ih =>
    rw [r.next_dropped goes] at ih
    rw [List.length_cons, ih, Nat.add_right_comm i, Nat.add_assoc]

/-- Behind a lexeme that is left out there is a gap. -/
theorem loose {drops : Nat → Bool} {other : List Char} {token : Token}
    (thinned : Thinned drops false i lexemes (⟨other, token⟩ :: kept)) : other ≠ [] := by
  generalize apart : false = tight at thinned
  generalize whole : Lexeme.mk other token :: kept = remaining at thinned
  induction thinned with
  | nil => cases whole
  | keep tight i gap next word rest others stays gaps more =>
    obtain ⟨rfl, -⟩ := Lexeme.mk.inj (List.cons.inj whole).1
    intro empty
    exact Bool.false_ne_true (apart.trans (gaps.mp empty).1)
  | skip tight i lexeme rest others goes left right quote more ih => exact ih rfl whole

/-- A left parenthesis that touches the lexeme before it did so before. -/
theorem touching {drops : Nat → Bool} {text : List Char}
    (thinned : Thinned drops true i lexemes (⟨[], ⟨.leftParen, text⟩⟩ :: kept)) :
    ∃ rest, lexemes = ⟨[], ⟨.leftParen, text⟩⟩ :: rest := by
  cases thinned with
  | keep _ _ gap other token rest kept stays gaps more =>
    obtain rfl := (gaps.mp rfl).2
    exact ⟨rest, rfl⟩
  | skip _ _ lexeme rest kept goes left right quote more => exact absurd rfl more.loose

end Thinned

theorem read_renumber {tight : Bool} {index : Nat} {lexemes kept : List Lexeme}
    (thinned : Thinned r.drops tight index lexemes kept) :
    (n.renumber r base).read (r.number index) kept = (n.read index lexemes).renumber r base := by
  fun_induction Nesting.read n index lexemes generalizing tight kept with
  | case1 n index =>
    cases thinned
    rfl
  | case2 n index lexeme text rest quote ih =>
    cases thinned with
    | skip _ _ _ _ _ goes left right notQuote more => exact absurd quote notQuote
    | keep _ _ gap other token _ kept stays gaps more =>
      cases more with
      | skip _ _ _ _ _ goes left right notQuote more => exact absurd rfl left
      | keep _ _ _ touch _ _ kept follows touches more =>
        obtain rfl : touch = [] := touches.mpr ⟨rfl, rfl⟩
        rw [Nesting.read.eq_2 _ _ ⟨other, token⟩ _ _ quote, ← ih more,
          renumber_push_atom _ _ follows, renumber_push_atom _ _ stays, renumber_openForm,
          r.next_kept follows, r.next_kept stays]
  | case3 n index lexeme rest left ih =>
    cases thinned with
    | skip _ _ _ _ _ goes notLeft right quote more => exact absurd left notLeft
    | keep _ _ gap other token _ kept stays gaps more =>
      rw [Nesting.read.eq_3 _ _ ⟨other, token⟩ _ left, ← ih more, renumber_push_atom _ _ stays,
        renumber_openForm, r.next_kept stays]
  | case4 n index lexeme rest right ih =>
    cases thinned with
    | skip _ _ _ _ _ goes left notRight quote more => exact absurd right notRight
    | keep _ _ gap other token _ kept stays gaps more =>
      rw [Nesting.read.eq_4 _ _ ⟨other, token⟩ _ right, ← ih more, renumber_closeForm,
        renumber_push_atom _ _ stays, r.next_kept stays]
  | case5 n index lexeme rest notQuoted notLeft notRight ih =>
    cases thinned with
    | skip _ _ _ _ _ goes left right quote more =>
      rw [← ih more, renumber_push_dropped _ _ goes, r.next_dropped goes]
    | keep _ _ gap other token _ kept stays gaps more =>
      rw [Nesting.read.eq_5 _ _ ⟨other, token⟩ _ notLeft notRight ?_, ← ih more,
        renumber_push_atom _ _ stays, r.next_kept stays]
      intro text others quote front
      rw [front] at more
      obtain ⟨rest, rfl⟩ := more.touching
      exact notQuoted text rest quote rfl

end Nesting

/-- The form of the lexemes that stay is the renumbered form of all. -/
theorem Form.ofLexemes_renumber {r : Renumbering} (start : r.number 0 = 0) {tight : Bool}
    {lexemes kept : List Lexeme} (thinned : Nesting.Thinned r.drops tight 0 lexemes kept) :
    ofLexemes kept = (ofLexemes lexemes).renumber r := by
  have size : kept.length = r.number lexemes.length := by
    simpa [start] using thinned.length
  have read := Nesting.read_renumber [] .empty thinned
  have closed := Nesting.renumber_closeAll (r := r) [] (Nesting.empty.read 0 lexemes) lexemes.length
  rw [← read, start, ← size] at closed
  have top : Node.renumber r _ ++ [] = _ := congrArg Nesting.top closed
  rw [List.append_nil] at top
  rw [renumber, ofLexemes, ofLexemes, Node.renumber_reverse, top, start, ← size]
  rfl

end LispIndex
