import LispIndex.Proofs.Occurrences
import LispIndex.Proofs.ParenScan

/-!
The first atoms of a form. The scan for the next atom that is no comment finds the next item of the
form that is none, as long as that item is an atom and no glyph.
-/

namespace LispIndex

namespace Export

variable {atoms : Array Atom} {index found : Nat}

theorem isCode_iff : isCode atoms index = true ↔
    ∃ a, atoms[index]? = some a ∧ a.isComment = false := by
  simp [isCode, Option.any_eq_true]

theorem codeFrom_spec {count : Nat} (code : codeFrom atoms index count = some found) :
    index ≤ found ∧ isCode atoms found = true ∧
      ∀ i, index ≤ i → i < found → isCode atoms i = false := by
  induction count generalizing index with
  | zero => cases code
  | succ count ih =>
    rw [codeFrom] at code
    split at code
    next here =>
      obtain rfl := Option.some.inj code
      exact ⟨Nat.le_refl _, here, fun i low high => absurd low (Nat.not_le_of_lt high)⟩
    next comment =>
      obtain ⟨behind, there, between⟩ := ih code
      refine ⟨Nat.le_of_succ_le behind, there, ?_⟩
      intro i low high
      rcases Nat.eq_or_lt_of_le low with rfl | above
      · exact Bool.eq_false_iff.mpr comment
      · exact between i above high

private theorem codeFrom_of_isCode {count : Nat} (low : index ≤ found)
    (high : found < index + count) (here : isCode atoms found = true)
    (between : ∀ i, index ≤ i → i < found → isCode atoms i = false) :
    codeFrom atoms index count = some found := by
  induction count generalizing index with
  | zero => exact absurd low (Nat.not_le_of_lt high)
  | succ count ih =>
    rw [codeFrom]
    rcases Nat.eq_or_lt_of_le low with rfl | above
    · rw [if_pos here]
    · rw [between index (Nat.le_refl index) above, if_neg Bool.false_ne_true]
      apply ih above (by omega)
      intro i low high
      exact between i (Nat.le_of_succ_le low) high

/-- The next atom that is no comment has nothing but comments before it. -/
theorem nextCode?_eq_some_iff : nextCode? atoms index = some found ↔
    index < found ∧ (∃ a, atoms[found]? = some a ∧ a.isComment = false) ∧
      ∀ i, index < i → i < found → ∃ a, atoms[i]? = some a ∧ a.isComment = true := by
  constructor
  · intro code
    obtain ⟨behind, here, between⟩ := codeFrom_spec code
    obtain ⟨a, there, plain⟩ := isCode_iff.mp here
    refine ⟨behind, ⟨a, there, plain⟩, ?_⟩
    intro i low high
    have bound : i < atoms.size := high.trans (Array.getElem?_eq_some_iff.mp there).1
    have comment := between i low high
    rw [isCode, Array.getElem?_eq_getElem bound] at comment
    exact ⟨_, Array.getElem?_eq_getElem bound, by simpa using comment⟩
  · rintro ⟨behind, ⟨a, there, plain⟩, comments⟩
    have bound : found < atoms.size := (Array.getElem?_eq_some_iff.mp there).1
    apply codeFrom_of_isCode behind (by omega) (isCode_iff.mpr ⟨a, there, plain⟩)
    intro i low high
    obtain ⟨b, here, comment⟩ := comments i low high
    simp [isCode, here, comment]

theorem openParenBelow_spec {closed : Nat}
    (below : openParenBelow atoms closed index = some found) :
    found < index ∧ ∃ a, atoms[found]? = some a ∧ a.isLeftParen = true := by
  induction index generalizing closed with
  | zero => cases below
  | succ index ih =>
    have further {closed : Nat} (below : openParenBelow atoms closed index = some found) :=
      (ih below).imp_left (Nat.lt_succ_of_lt ·)
    rw [openParenBelow] at below
    split at below
    next => exact further below
    next a here =>
      split_ifs at below with right left
      · exact further below
      · obtain rfl := Option.some.inj below
        exact ⟨Nat.lt_succ_self index, a, here, left⟩
      · exact further below
      · exact further below

end Export

def Atom.isOneOf (names : List String) (a : Atom) : Bool :=
  names.any (Text.sameName a.symbol)

def Atom.isOpening (a : Atom) : Bool :=
  a.isComment || a.isLeftParen || a.isQuote

theorem Atom.isPrimitive_of_comment {a : Atom} (comment : a.isComment = true) :
    a.isPrimitive = true := by
  obtain ⟨more, spelled⟩ := List.isPrefixOf_iff_prefix.mp comment
  exact isPrimitive_of_glyph spelled.symm rfl

theorem Atom.not_comment_of_symbol {a : Atom} {text : String} (symbol : (a.symbol == text) = true)
    (other : text.toList.head? ≠ some ';') : a.isComment = false := by
  rw [Bool.eq_false_iff]
  intro comment
  obtain ⟨more, spelled⟩ := List.isPrefixOf_iff_prefix.mp comment
  rw [beq_iff_eq.mp symbol] at spelled
  rw [← spelled] at other
  exact other rfl

def Text.isWord (name : String) : Bool :=
  (name.toList.map Char.toLower).head?.any fun c => !(c == ';' || c == '(' || c == '\x27')

theorem Atom.isOpening_of_isOneOf {a : Atom} {names : List String}
    (words : names.all Text.isWord = true) (named : a.isOneOf names = true) :
    a.isOpening = false := by
  obtain ⟨name, member, same⟩ := List.any_eq_true.mp named
  have word := List.all_eq_true.mp words name member
  rw [Text.isWord, ← beq_iff_eq.mp same] at word
  rw [Bool.eq_false_iff]
  intro opening
  rw [isOpening, Bool.or_eq_true, Bool.or_eq_true] at opening
  rcases opening with (comment | left) | quote
  · obtain ⟨more, spelled⟩ := List.isPrefixOf_iff_prefix.mp comment
    rw [← spelled] at word
    cases word
  · rw [beq_iff_eq.mp left] at word
    cases word
  · rw [beq_iff_eq.mp quote] at word
    cases word

theorem Atom.isOpening_of_plain {a : Atom} (plain : a.isPrimitive = false) :
    a.isOpening = false := by
  have primitive (c : Char) (text : String) (single : text.toList = [c]) (glyph : isGlyph c = true)
      (symbol : (a.symbol == text) = true) : a.isPrimitive = true := by
    rw [← beq_iff_eq.mp symbol] at single
    exact isPrimitive_of_glyph single glyph
  rw [Bool.eq_false_iff]
  intro opening
  rw [isOpening, Bool.or_eq_true, Bool.or_eq_true] at opening
  rcases opening with (comment | left) | quote
  · rw [isPrimitive_of_comment comment] at plain
    cases plain
  · rw [primitive '(' "(" rfl rfl left] at plain
    cases plain
  · rw [primitive '\x27' "\x27" rfl rfl quote] at plain
    cases plain

namespace Covers

variable {first stop i : Nat} {items back : List Node}

theorem behind_atom (covers : Covers first stop (items ++ .atom i :: back)) :
    Covers first i items ∧ Covers (i + 1) stop back := by
  obtain ⟨middle, front, rest⟩ := covers.split
  obtain ⟨rfl, later⟩ := rest.of_atom
  exact ⟨front, later⟩

end Covers

namespace Document

variable {d : Document}

def AllAtoms (d : Document) (test : Atom → Bool) (items : List Node) : Prop :=
  ∀ node ∈ items, ∃ i, node = .atom i ∧ d.Passes test i

/-- What is behind the head of a form. Before it stand the glyphs that open the form, and
comments. -/
def Heads (d : Document) (f : Form) (head : Nat) (rest : List Node) : Prop :=
  ∃ front, f.items.drop 1 = front ++ .atom head :: rest ∧ d.AllAtoms Atom.isOpening front

theorem AllAtoms.mono {test other : Atom → Bool} {items : List Node} (all : d.AllAtoms test items)
    (weaker : ∀ a : Atom, test a = true → other a = true) : d.AllAtoms other items := by
  intro node member
  obtain ⟨k, rfl, a, found, passed⟩ := all node member
  exact ⟨k, rfl, a, found, weaker a passed⟩

theorem AllAtoms.opening {items : List Node} (remarks : d.AllAtoms Atom.isComment items) :
    d.AllAtoms Atom.isOpening items :=
  remarks.mono fun a comment => by rw [Atom.isOpening, comment, Bool.true_or, Bool.true_or]

private theorem Worded.form_opens (worded : d.Worded) {first stop : Nat} {f : Form}
    (nested : f ∈ d.root.nested) (covers : Covers first stop f.items) :
    d.Passes Atom.isLeftParen first ∨ d.Passes Atom.isQuote first := by
  obtain ⟨i, rest, items, glyph⟩ := worded.opens f nested
  rw [items] at covers
  rwa [← covers.of_atom.1]

/-- Items that start with comments go on with the atom behind them, if it opens no form. -/
theorem Worded.items_front (worded : d.Worded) {first found stop : Nat} {items : List Node}
    (covers : Covers first stop items) (nested : ∀ f ∈ Node.formsOf items, f ∈ d.root.nested)
    (low : first ≤ found) (high : found < stop)
    (comments : ∀ i, first ≤ i → i < found → d.Passes Atom.isComment i)
    (plain : ¬ (d.Passes Atom.isLeftParen found ∨ d.Passes Atom.isQuote found)) :
    ∃ front rest, items = front ++ .atom found :: rest ∧
      d.AllAtoms Atom.isComment front ∧ Covers (found + 1) stop rest := by
  -- A form among the items would start with a glyph, where there are only comments.
  induction items generalizing first with
  | nil => exact absurd (low.trans_lt high) (Nat.not_lt_of_le (Nat.le_of_eq covers.of_nil.symm))
  | cons node rest ih =>
    cases node with
    | atom i =>
      obtain ⟨rfl, later⟩ := covers.of_atom
      rcases Nat.eq_or_lt_of_le low with rfl | above
      · exact ⟨[], rest, rfl, nofun, later⟩
      · obtain ⟨front, others, split, all, behind⟩ :=
          ih later (fun f member => nested f (List.mem_append_right _ member)) above
            fun j low high => comments j (Nat.le_of_succ_le low) high
        refine ⟨.atom i :: front, others, by rw [split, List.cons_append], ?_, behind⟩
        exact List.forall_mem_cons.mpr ⟨⟨i, rfl, comments i (Nat.le_refl i) above⟩, all⟩
    | form span inner =>
      obtain ⟨middle, inside, -⟩ := covers.of_form
      have glyph := worded.form_opens (f := ⟨span, inner⟩)
        (nested _ (Node.mem_formsOf (List.mem_cons_self ..))) inside
      rcases Nat.eq_or_lt_of_le low with rfl | above
      · exact absurd glyph plain
      · obtain ⟨a, here, comment⟩ := comments first (Nat.le_refl first) above
        rcases glyph with ⟨b, there, left⟩ | ⟨b, there, quote⟩
        · obtain rfl := Option.some.inj (here.symm.trans there)
          rw [Atom.not_comment_of_symbol left (by decide)] at comment
          cases comment
        · obtain rfl := Option.some.inj (here.symm.trans there)
          rw [Atom.not_comment_of_symbol quote (by decide)] at comment
          cases comment

private theorem child_mem_subtree {f : Form} (nested : f ∈ d.root.nested) :
    d.view.child f ∈ d.view.subtree := by
  rw [FormView.subtree_eq]
  exact List.mem_cons_of_mem _ (List.mem_map_of_mem nested)

open Export

/-- From an atom behind the parenthesis that opens its form, the scan finds that parenthesis. -/
theorem Reads.enclosingParen?_item {lexemes : List Lexeme} (reads : d.Reads lexemes)
    (sourced : d.Sourced) {f : Form} (nested : f ∈ d.root.nested) {place paren i : Nat}
    (opens : d.OpensAt f place paren) (item : .atom i ∈ f.items) (behind : paren < i) :
    enclosingParen? d.atoms i = some paren := by
  have unique {place other : Nat} (opened : d.OpensAt f place other) : other = paren := by
    obtain ⟨next, glyphs, body, opening, split, inside⟩ :=
      Nesting.made_body (reads.rest.made f nested)
    have first := (reads.opensAt_last opening split inside opens).2
    have second := (reads.opensAt_last opening split inside opened).2
    omega
  have glyph : ¬ d.IsGlyph (d.view.child f) i := by
    rintro ⟨-, other, left, opened, here | ⟨-, here⟩⟩
    · rw [unique opened] at here
      omega
    · rw [unique opened] at here
      omega
  have bound : i < d.atoms.size := by
    obtain ⟨covers, -, within⟩ := sourced.forms f nested
    exact (covers.mem_leavesOf.mp (Node.mem_leavesOf.mpr (.inl item))).2.trans_le within
  obtain ⟨other, left, opened, found⟩ :=
    (reads.encloses (child_mem_subtree nested) item fun j same => by cases same; exact glyph).2 rfl
  rw [enclosingParen?, Nat.min_eq_left (Nat.le_of_lt bound), ← unique opened]
  exact found

/-- The parenthesis that the scan from an atom finds opens the form that has the atom. -/
theorem Reads.form_of_enclosingParen? {lexemes : List Lexeme} (reads : d.Reads lexemes)
    (sourced : d.Sourced) {i paren : Nat} (bound : i < d.atoms.size)
    (plain : ¬ (d.Passes Atom.isLeftParen i ∨ d.Passes Atom.isQuote i))
    (found : enclosingParen? d.atoms i = some paren) :
    ∃ f ∈ d.root.nested, ∃ place, d.OpensAt f place paren ∧ .atom i ∈ f.items := by
  have glyph (v : FormView) : ¬ d.IsGlyph v i := by
    rintro ⟨-, place, left, ⟨opens, -, first | ⟨-, q, behind, -, quote, -⟩⟩, rfl | ⟨second, here⟩⟩
    · exact plain (.inl opens)
    · omega
    · exact plain (.inl opens)
    · obtain rfl : q = i := by omega
      exact plain (.inr quote)
  rw [enclosingParen?, Nat.min_eq_left (Nat.le_of_lt bound)] at found
  have apart (v : FormView) (j : Nat) (same : Node.atom i = .atom j) : ¬ d.IsGlyph v j := by
    cases same
    exact glyph v
  have held := Form.exists_holder (sourced.covers.mem_leavesOf.mpr ⟨Nat.zero_le i, bound⟩)
  rcases held with direct | ⟨f, nested, item⟩
  · have outside := (reads.encloses (v := d.view) List.mem_cons_self direct (apart _)).1 rfl
    cases found.symm.trans outside
  · obtain ⟨place, other, opens, here⟩ :=
      (reads.encloses (child_mem_subtree nested) item (apart _)).2 rfl
    obtain rfl := Option.some.inj (found.symm.trans here)
    exact ⟨f, nested, place, opens, item⟩

/-- The next atom behind the opening parenthesis that is no comment is the head of the form. -/
theorem Worded.heads (worded : d.Worded) (sourced : d.Sourced) {f : Form}
    (nested : f ∈ d.root.nested) {place paren head : Nat} (opens : d.OpensAt f place paren)
    (code : nextCode? d.atoms paren = some head) (inside : head < f.span.stop)
    (plain : ¬ (d.Passes Atom.isLeftParen head ∨ d.Passes Atom.isQuote head)) :
    ∃ rest, d.Heads f head rest ∧ rest <:+ f.items ∧ Covers (head + 1) f.span.stop rest := by
  obtain ⟨left, item, first⟩ := opens
  obtain ⟨bound, here⟩ := List.getElem?_eq_some_iff.mp item
  have split : f.items = f.items.take place ++ .atom paren :: f.items.drop (place + 1) := by
    rw [← here, ← List.drop_eq_getElem_cons bound, List.take_append_drop]
  have covers := (sourced.forms f nested).1
  rw [split] at covers
  obtain ⟨-, body⟩ := covers.behind_atom
  obtain ⟨behind, -, comments⟩ := nextCode?_eq_some_iff.mp code
  obtain ⟨front, rest, parts, remarks, later⟩ := worded.items_front body (fun g member =>
    Form.nested_trans nested (Node.formsOf_suffix (List.drop_suffix _ _) member)) behind inside
    comments plain
  have suffix : rest <:+ f.items := by
    have tail : rest <:+ f.items.drop (place + 1) := by
      rw [parts]
      exact ⟨front ++ [.atom head], by simp⟩
    exact tail.trans (List.drop_suffix _ _)
  refine ⟨rest, ?_, suffix, later⟩
  -- The parenthesis is the first item, or the second of a quoted form.
  rcases first with rfl | ⟨rfl, -⟩
  · exact ⟨front, parts, remarks.opening⟩
  · refine ⟨.atom paren :: front, ?_, List.forall_mem_cons.mpr ⟨?_, remarks.opening⟩⟩
    · rw [List.drop_eq_getElem_cons bound, here, parts]
      rfl
    · obtain ⟨a, found, isLeft⟩ := left
      exact ⟨paren, rfl, a, found, by rw [Atom.isOpening, isLeft, Bool.or_true, Bool.true_or]⟩

theorem not_glyph {i : Nat} {a : Atom} (here : d.atoms[i]? = some a)
    (plain : a.isOpening = false) :
    ¬ (d.Passes Atom.isLeftParen i ∨ d.Passes Atom.isQuote i) := by
  rintro (⟨b, there, left⟩ | ⟨b, there, quote⟩)
  · obtain rfl := Option.some.inj (here.symm.trans there)
    rw [Atom.isOpening, left, Bool.or_true, Bool.true_or] at plain
    cases plain
  · obtain rfl := Option.some.inj (here.symm.trans there)
    rw [Atom.isOpening, quote, Bool.or_true] at plain
    cases plain

/-- The form that has a name, if the scan finds a head of some names for it, has that head. -/
theorem Reads.headed {lexemes : List Lexeme} (reads : d.Reads lexemes) (sourced : d.Sourced)
    (worded : d.Worded) {names : List String} {i head : Nat} {a : Atom}
    (words : names.all Text.isWord = true)
    (here : d.atoms[i]? = some a) (plain : a.isPrimitive = false)
    (found : formHeadNamed? (.scan d.atoms) d.atoms names i = some head) :
    d.Passes (Atom.isOneOf names) head ∧ ∃ f ∈ d.root.nested, .atom i ∈ f.items ∧
      ∃ rest, d.Heads f head rest ∧ rest <:+ f.items ∧ Covers (head + 1) f.span.stop rest := by
  obtain ⟨first, -, b, there, named⟩ := formHeadNamed?_spec found
  obtain ⟨paren, enclosing, code⟩ := Option.bind_eq_some_iff.mp first
  have bound := (Array.getElem?_eq_some_iff.mp here).1
  obtain ⟨f, nested, place, opens, item⟩ := reads.form_of_enclosingParen? sourced bound
    (not_glyph here (Atom.isOpening_of_plain plain)) enclosing
  have behind : paren < i := (openParenBelow_spec enclosing).1.trans_le (Nat.min_le_left _ _)
  -- The name itself is no comment, so the scan for the head does not pass it.
  have reached : head ≤ i := by
    by_contra before
    obtain ⟨e, same, comment⟩ :=
      (nextCode?_eq_some_iff.mp code).2.2 i behind (Nat.lt_of_not_le before)
    obtain rfl := Option.some.inj (here.symm.trans same)
    rw [Atom.isPrimitive_of_comment comment] at plain
    cases plain
  have inside := (sourced.forms f nested).1.mem_leavesOf.mp (Node.mem_leavesOf.mpr (.inl item))
  obtain ⟨rest, heads⟩ := worded.heads sourced nested opens code (reached.trans_lt inside.2)
    (not_glyph there (Atom.isOpening_of_isOneOf words named))
  exact ⟨⟨b, there, named⟩, f, nested, item, rest, heads⟩

end Document

end LispIndex
