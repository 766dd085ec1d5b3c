import LispIndex.Proofs.Renumbering
import LispIndex.Proofs.Rereading
import LispIndex.Proofs.SymbolTable

/-!
Texts one after the other. Where a line of a text ends with no token and no form left open, what
follows is read as if it stood alone: its atoms come behind those before it and are otherwise moved
down by whole lines.
-/

namespace LispIndex

def Position.down (p : Position) (lines : Nat) : Position :=
  ⟨p.line + lines, p.character⟩

def Atom.moved (count lines : Nat) (a : Atom) : Atom :=
  { a with start := a.start.down lines, index := a.index + count }

/-- A document made of two, the second of them behind the first one and `lines` below its start. -/
structure Document.Joins (whole front back : Document) (lines : Nat) : Prop where
  atoms : whole.atoms.toList =
    front.atoms.toList ++ back.atoms.toList.map (Atom.moved front.atoms.size lines)
  items : whole.root.items =
    front.root.items ++ Node.renumber (.shift front.atoms.size) back.root.items
  symbols : ∀ key : String, whole.symbols[key]? = Option.merge (· ++ ·) front.symbols[key]?
    (back.symbols[key]?.map (List.map (· + front.atoms.size)))

def Lexeme.behind (gap : List Char) : List Lexeme → List Lexeme
  | [] => []
  | ⟨own, token⟩ :: rest => ⟨gap ++ own, token⟩ :: rest

theorem Lexeme.length_behind (gap : List Char) (lexemes : List Lexeme) :
    (behind gap lexemes).length = lexemes.length := by
  cases lexemes <;> rfl

instance (d : Document) (f : Form) : Decidable (d.Closed f) :=
  decidable_of_iff ((f.items.getLast?.bind Node.index?).bind (d.atoms[·]?)
      |>.any Atom.isRightParen) (by
    simp only [Document.Closed, Document.Passes, Option.any_eq_true, Option.bind_eq_some_iff]
    constructor
    · rintro ⟨a, ⟨i, ⟨node, last, index⟩, found⟩, passes⟩
      cases node with
      | atom j =>
        obtain rfl := Option.some.inj index
        exact ⟨_, last, a, found, passes⟩
      | form span items => cases index
    · rintro ⟨i, last, a, found, passes⟩
      exact ⟨a, ⟨i, ⟨_, last, rfl⟩, found⟩, passes⟩)

private theorem Document.closed_of_all {d : Document}
    (all : d.root.nested.all (d.Closed ·) = true) :
    ∀ f ∈ d.root.nested, d.Closed f := by
  simpa using all

namespace Lexes

variable {text tail more rest : List Char} {lexemes others : List Lexeme}

theorem behind {gap : List Char} (blanks : ∀ b ∈ gap, Text.isBlank b = true)
    (lexes : Lexes text lexemes tail) :
    ∃ last, Lexes (gap ++ text) (Lexeme.behind gap lexemes) last := by
  cases lexes with
  | blank _ tailBlanks => exact ⟨_, .blank _ (List.forall_mem_append.mpr ⟨blanks, tailBlanks⟩)⟩
  | token own c rest lexemes tail ownBlanks start more =>
    have joined := List.forall_mem_append.mpr ⟨blanks, ownBlanks⟩
    rw [← List.append_assoc]
    exact ⟨tail, .token (gap ++ own) c rest lexemes tail joined start more⟩

/-- A text that ends with a blank is lexed alike whatever follows it. -/
theorem append (lexes : Lexes text lexemes tail) (filled : tail ≠ [])
    (next : Lexes more others rest) :
    ∃ last, Lexes (text ++ more) (lexemes ++ Lexeme.behind tail others) last := by
  induction lexes with
  | blank tail blanks => exact next.behind blanks
  | token gap c after lexemes tail blanks start further ih =>
    obtain ⟨last, behind⟩ := ih filled
    have remains : (Token.split c after).2 ≠ [] := by
      intro finished
      rw [finished] at further
      exact filled further.tail_nil
    have first : ((Token.split c after).2 ++ more).head? = (Token.split c after).2.head? := by
      rw [List.head?_append_of_ne_nil _ remains]
    have follows : Token.Follows (Token.split c after).1.kind (Token.split c after).2
        ((Token.split c after).2 ++ more) := by
      refine ⟨fun finished => absurd finished remains, ?_, ?_⟩
      · intro bare d found
        exact Token.split_bare c after bare d (first ▸ found)
      · intro line d found
        exact (Token.split_lineComment c after line).2 d (first ▸ found)
    obtain ⟨body, whole, same⟩ := Token.split_swap c after _ follows
    have step := Lexes.token gap c (body ++ ((Token.split c after).2 ++ more))
      (lexemes ++ Lexeme.behind tail others) last blanks start (by rw [same]; exact behind)
    refine ⟨last, ?_⟩
    have parts := Token.split_append c after
    rw [whole] at parts
    have text_eq : after = body ++ (Token.split c after).2 := (List.cons.inj parts).2.symm
    rw [same, ← List.append_assoc, ← text_eq] at step
    simpa using step

end Lexes

theorem Grammar.HasKind.unique {a : Atom} {kind other : TokenKind} (first : HasKind a kind)
    (second : HasKind a other) : kind = other := by
  simp only [HasKind] at first second
  cases kind <;> cases other <;> simp_all

/-- Documents of the same atoms and the same gaps have the same lexemes. -/
theorem lexemes_unique (native : String → Bool) {text other : String}
    (atoms : (Document.build native text).atoms = (Document.build native other).atoms)
    (gaps : (Lexing.ofText text.toList).lexemes.map Lexeme.gap =
      (Lexing.ofText other.toList).lexemes.map Lexeme.gap) :
    (Lexing.ofText text.toList).lexemes = (Lexing.ofText other.toList).lexemes := by
  have words := build_words native text
  rw [Document.words, atoms, ← Document.words, build_words] at words
  apply List.ext_getElem?
  intro i
  have gap := congrArg (·[i]?) gaps
  have word := congrArg (·[i]?) words
  simp only [List.getElem?_map] at gap word
  cases here : (Lexing.ofText text.toList).lexemes[i]? with
  | none =>
    rw [here, Option.map_none, eq_comm, Option.map_eq_none_iff] at gap
    rw [gap]
  | some lexeme =>
    obtain ⟨twin, there, sameGap⟩ := Option.map_eq_some_iff.mp (gap.symm.trans (by rw [here]; rfl))
    have sameText : twin.token.text = lexeme.token.text := by
      rw [here, there] at word
      exact Option.some.inj word
    have bound := (List.getElem?_eq_some_iff.mp here).1
    rw [← build_size native text] at bound
    obtain ⟨atom, found⟩ : ∃ atom, (Document.build native text).atoms[i]? = some atom :=
      ⟨_, Array.getElem?_eq_getElem bound⟩
    obtain ⟨kind, first, has⟩ := build_kind native text i _ found
    rw [atoms] at found
    obtain ⟨same, second, hasToo⟩ := build_kind native other i _ found
    rw [Nesting.kind?, here] at first
    rw [Nesting.kind?, there, hasToo.unique has] at second
    have sameKind : twin.token.kind = lexeme.token.kind :=
      Option.some.inj (second.trans first.symm)
    calc some lexeme
      _ = some ⟨twin.gap, ⟨twin.token.kind, twin.token.text⟩⟩ := by rw [sameGap, sameKind, sameText]
      _ = (Lexing.ofText other.toList).lexemes[i]? := there.symm

theorem Position.advance_down (p : Position) (lines : Nat) (text : List Char) :
    (p.down lines).advance text = (p.advance text).down lines := by
  rw [advance_eq, advance_eq, down, down, Nat.add_right_comm]

theorem atomsFrom_moved (count lines index : Nat) (start : Position) (lexemes : List Lexeme) :
    atomsFrom (index + count) (start.down lines) lexemes =
      (atomsFrom index start lexemes).map (Atom.moved count lines) := by
  induction lexemes generalizing index start with
  | nil => rfl
  | cons lexeme rest ih =>
    simp only [atomsFrom, List.map_cons, Position.advance_down, Nat.add_right_comm index count, ih]
    rfl

theorem atomsFrom_behind (index : Nat) (start : Position) (gap : List Char)
    (lexemes : List Lexeme) : atomsFrom index start (Lexeme.behind gap lexemes) =
      atomsFrom index (start.advance gap) lexemes := by
  cases lexemes with
  | nil => rfl
  | cons lexeme rest => rw [Lexeme.behind, atomsFrom, atomsFrom, Position.advance_append]

theorem Lexes.atomsFrom_append {text tail : List Char} {lexemes : List Lexeme}
    (lexes : Lexes text lexemes tail) (others : List Lexeme) (index : Nat) (start : Position) :
    atomsFrom index start (lexemes ++ Lexeme.behind tail others) =
      atomsFrom index start lexemes ++
        atomsFrom (index + lexemes.length) (start.advance text) others := by
  induction lexes generalizing index start with
  | blank tail blanks => exact atomsFrom_behind index start tail others
  | token gap c rest lexemes tail blanks starts more ih =>
    have text := token_text [] gap rest c
    rw [List.nil_append, List.nil_append] at text
    rw [List.cons_append, atomsFrom, atomsFrom, ih, text, Position.advance_append,
      Position.advance_append, List.cons_append, List.length_cons, Nat.add_right_comm index 1]
    rfl

namespace Nesting

variable {lexemes : List Lexeme}

/-- Lexemes of which the first one touches nothing are read from where those before them lead. -/
theorem read_append (n : Nesting) (index : Nat) (front back : List Lexeme)
    (apart : ∀ lexeme ∈ back.head?, lexeme.gap ≠ []) :
    n.read index (front ++ back) = (n.read index front).read (index + front.length) back := by
  fun_induction Nesting.read n index front with
  | case1 n index => rfl
  | case2 n index lexeme text rest quote ih =>
    rw [List.cons_append, List.cons_append, read.eq_2 _ _ _ _ _ quote, ih]
    simp only [List.length_cons, Nat.add_comm, Nat.add_left_comm, Nat.reduceAdd]
  | case3 n index lexeme rest left ih =>
    rw [List.cons_append, read.eq_3 _ _ _ _ left, ih, List.length_cons, Nat.add_right_comm,
      Nat.add_assoc]
  | case4 n index lexeme rest right ih =>
    rw [List.cons_append, read.eq_4 _ _ _ _ right, ih, List.length_cons, Nat.add_right_comm,
      Nat.add_assoc]
  | case5 n index lexeme rest notQuoted notLeft notRight ih =>
    rw [List.cons_append, read.eq_5 _ _ _ _ notLeft notRight ?_, ih, List.length_cons,
      Nat.add_right_comm, Nat.add_assoc]
    -- A quote may be the last lexeme in front, and then it is `back` that has to stand apart.
    intro text others quote touching
    cases rest with
    | nil =>
      rw [List.nil_append] at touching
      exact apart _ (by rw [touching]; rfl) rfl
    | cons next more =>
      obtain ⟨rfl, -⟩ := List.cons.inj touching
      exact notQuoted text more quote rfl

/-- A form that is open at the end of the text is never finished. -/
theorem Ending.unfinished {n : Nesting} (ending : Ending lexemes n) (forms : List OpenForm)
    (size : n.forms.length = forms.length) (opened : forms ≠ []) :
    ∃ f ∈ Node.formsOf
        (forms.foldl (fun nesting _ => nesting.closeForm lexemes.length) n).top.reverse,
      Unfinished lexemes f := by
  induction forms generalizing n with
  | nil => exact absurd rfl opened
  | cons form outer ih =>
    by_cases last : outer = []
    · subst last
      cases ending with
      | top items rest => cases size
      | inside others top items glyphs inner first next around opening rest split =>
        obtain rfl : others = [] := List.eq_nil_of_length_eq_zero (Nat.succ.inj size)
        refine ⟨_, ?_, .intro first next glyphs inner opening rest⟩
        change _ ∈ Node.formsOf (Node.form ⟨first, lexemes.length⟩ items.reverse :: top).reverse
        rw [split]
        exact Node.mem_formsOf (by simp)
    · refine ih ending.closeForm ?_ last
      rw [closeForm_length, size, List.length_cons, Nat.add_sub_cancel]

private theorem read_closed
    (finished : ∀ f ∈ (Form.ofLexemes lexemes).nested, ¬ Unfinished lexemes f) :
    (empty.read 0 lexemes).forms = [] := by
  by_contra opened
  have start : Reading lexemes empty 0 := .top [] 0 (.none true 0)
  obtain ⟨f, nested, unfinished⟩ :=
    (start.read [] lexemes rfl rfl).ending.unfinished _ rfl opened
  exact finished f nested unfinished

theorem thinned_self (i : Nat) (lexemes : List Lexeme) :
    Thinned (fun _ => false) true i lexemes lexemes := by
  induction lexemes generalizing i with
  | nil => exact .nil true i
  | cons lexeme rest ih =>
    exact .keep true i lexeme.gap lexeme.gap lexeme.token rest rest rfl (by simp) (ih (i + 1))

private theorem thinned_behind {gap : List Char} (filled : gap ≠ []) (lexemes : List Lexeme) :
    Thinned (fun _ => false) false 0 lexemes (Lexeme.behind gap lexemes) := by
  cases lexemes with
  | nil => exact .nil false 0
  | cons lexeme rest =>
    exact .keep false 0 lexeme.gap _ lexeme.token rest rest rfl (by simp [filled])
      (thinned_self 1 rest)

/-- Outside of all forms, lexemes that stand apart are read as if they stood alone. -/
theorem read_behind {front : List Lexeme} (closed : (empty.read 0 front).forms = [])
    {gap : List Char} (filled : gap ≠ []) (back : List Lexeme) :
    empty.read 0 (front ++ Lexeme.behind gap back) =
      (empty.read 0 back).renumber (.shift front.length) (empty.read 0 front).top := by
  have apart : ∀ lexeme ∈ (Lexeme.behind gap back).head?, lexeme.gap ≠ [] := by
    cases back with
    | nil => simp [Lexeme.behind]
    | cons lexeme rest => simp [Lexeme.behind, filled]
  have outside : empty.read 0 front =
      empty.renumber (.shift front.length) (empty.read 0 front).top := by
    change _ = Nesting.mk [] _
    rw [← closed]
    rfl
  calc empty.read 0 (front ++ Lexeme.behind gap back)
    _ = (empty.read 0 front).read (0 + front.length) (Lexeme.behind gap back) :=
        read_append empty 0 front _ apart
    _ = (empty.renumber (.shift front.length) (empty.read 0 front).top).read (0 + front.length)
          (Lexeme.behind gap back) := by rw [← outside]
    _ = (empty.read 0 back).renumber (.shift front.length) (empty.read 0 front).top :=
        read_renumber _ _ (thinned_behind filled back)

end Nesting

/-- Behind forms that are all closed, other lexemes make the items that they make alone. -/
theorem Form.ofLexemes_append {front : List Lexeme}
    (finished : ∀ f ∈ (ofLexemes front).nested, ¬ Nesting.Unfinished front f) {gap : List Char}
    (filled : gap ≠ []) (back : List Lexeme) :
    (ofLexemes (front ++ Lexeme.behind gap back)).items =
      (ofLexemes front).items ++ Node.renumber (.shift front.length) (ofLexemes back).items := by
  have closed := Nesting.read_closed finished
  have alone : (ofLexemes front).items = (Nesting.empty.read 0 front).top.reverse := by
    rw [ofLexemes, Nesting.closeAll, closed]
    rfl
  have size : (front ++ Lexeme.behind gap back).length = back.length + front.length := by
    rw [List.length_append, Lexeme.length_behind, Nat.add_comm]
  rw [alone, ofLexemes, ofLexemes, size, Nesting.read_behind closed filled, Node.renumber_reverse,
    ← List.reverse_append]
  exact congrArg (List.reverse ∘ Nesting.top) (Nesting.renumber_closeAll _ _ back.length).symm

namespace SymbolTable

variable (native : String → Bool)

theorem placesOf_append (front back : List Atom) (key : String) :
    placesOf native (front ++ back) key = placesOf native front key ++ placesOf native back key := by
  rw [placesOf, List.filter_append, List.map_append]
  rfl

private theorem placesOf_moved (count lines : Nat) (atoms : List Atom) (key : String) :
    placesOf native (atoms.map (Atom.moved count lines)) key =
      (placesOf native atoms key).map (· + count) := by
  rw [placesOf, placesOf, List.filter_map, List.map_map, List.map_map]
  rfl

theorem getElem?_merge (whole front back : Array Atom) (key : String) (move : Nat → Nat)
    (places : placesOf native whole.toList key =
      placesOf native front.toList key ++ (placesOf native back.toList key).map move) :
    (ofAtoms native whole)[key]? = Option.merge (· ++ ·) (ofAtoms native front)[key]?
      ((ofAtoms native back)[key]?.map (List.map move)) := by
  rw [getElem?_ofAtoms, getElem?_ofAtoms, getElem?_ofAtoms, places]
  by_cases first : placesOf native front.toList key = [] <;>
    by_cases second : placesOf native back.toList key = [] <;> simp [first, second]

end SymbolTable

section Ended

variable {native : String → Bool} {a b : String}

/-- A line feed behind a text that changes no atom is lexed as a blank. -/
theorem lexes_ended
    (ended : (Document.build native (a ++ "\n")).atoms = (Document.build native a).atoms) :
    Lexes (a.toList ++ ['\n']) (Lexing.ofText a.toList).lexemes
      ((Lexing.ofText a.toList).tail ++ ['\n']) := by
  have lexes := Lexing.ofText_lexes (a ++ "\n").toList
  have first := build_spaced native (a ++ "\n")
  have second := build_spaced native a
  have text : (a ++ "\n").toList = a.toList ++ ['\n'] := String.toList_append
  have words : (Document.build native (a ++ "\n")).words = (Document.build native a).words := by
    rw [Document.words, ended, Document.words]
  have joined := calc
    interleave ((Lexing.ofText a.toList).lexemes.map Lexeme.gap) (Document.build native a).words ++
        ((Lexing.ofText a.toList).tail ++ ['\n'])
      = a.toList ++ ['\n'] := by rw [← List.append_assoc, ← second.joined]
    _ = interleave ((Lexing.ofText (a ++ "\n").toList).lexemes.map Lexeme.gap)
          (Document.build native a).words ++ (Lexing.ofText (a ++ "\n").toList).tail := by
        rw [← text, ← words]
        exact first.joined
  -- Both texts have the same words, and there is one way to fill the gaps between them.
  obtain ⟨gaps, tail⟩ := interleave_unique (build_starts native a) second.count
    (words ▸ first.count) (fun gap member => second.blank gap (List.mem_cons_of_mem _ member))
    (fun gap member => first.blank gap (List.mem_cons_of_mem _ member)) joined
  rwa [lexemes_unique native ended gaps.symm, ← tail, text] at lexes

private theorem lexemes_join
    (ended : (Document.build native (a ++ "\n")).atoms = (Document.build native a).atoms) :
    (Lexing.ofText (a ++ "\n" ++ b).toList).lexemes = (Lexing.ofText a.toList).lexemes ++
      Lexeme.behind ((Lexing.ofText a.toList).tail ++ ['\n']) (Lexing.ofText b.toList).lexemes := by
  obtain ⟨last, joined⟩ :=
    (lexes_ended ended).append (by simp) (Lexing.ofText_lexes b.toList)
  have text : (a ++ "\n" ++ b).toList = a.toList ++ ['\n'] ++ b.toList := by
    simp [String.toList_append]
  rw [← text] at joined
  exact (Lexing.ofText_lexes _).unique joined

theorem build_atoms_join
    (ended : (Document.build native (a ++ "\n")).atoms = (Document.build native a).atoms) :
    (Document.build native (a ++ "\n" ++ b)).atoms.toList =
      (Document.build native a).atoms.toList ++ (Document.build native b).atoms.toList.map
        (Atom.moved (Document.build native a).atoms.size (a.toList.count '\n' + 1)) := by
  have below : Position.origin.advance (a.toList ++ ['\n']) =
      Position.origin.down (a.toList.count '\n' + 1) := by
    rw [Position.advance_origin]
    simp [Position.down, Position.origin]
  rw [build_atoms, build_atoms, build_atoms, build_size, lexemes_join ended,
    (lexes_ended ended).atomsFrom_append, below, atomsFrom_moved]

/-- Documents are joined at the end of a line. If a line feed behind the first text changes none of
its atoms and all its forms are closed, then a text on the next line adds its own atoms, items and
names to those of the first one. -/
theorem build_joined (native : String → Bool) (a b : String)
    (ended : (Document.build native (a ++ "\n")).atoms = (Document.build native a).atoms)
    (closed : ∀ f ∈ (Document.build native a).root.nested, (Document.build native a).Closed f) :
    (Document.build native (a ++ "\n" ++ b)).Joins (Document.build native a)
      (Document.build native b) (a.toList.count '\n' + 1) where
  atoms := build_atoms_join ended
  items := by
    have finished : ∀ f ∈ (Form.ofLexemes (Lexing.ofText a.toList).lexemes).nested,
        ¬ Nesting.Unfinished (Lexing.ofText a.toList).lexemes f :=
      fun f nested unfinished => (build_reads native a).unclosed unfinished (closed f nested)
    rw [build_size]
    change (Form.ofLexemes (Lexing.ofText (a ++ "\n" ++ b).toList).lexemes).items = _
    rw [lexemes_join ended]
    exact Form.ofLexemes_append finished (by simp) _
  symbols key := by
    refine SymbolTable.getElem?_merge native _ _ _ key _ ?_
    rw [← SymbolTable.placesOf_moved, ← SymbolTable.placesOf_append]
    exact congrArg (SymbolTable.placesOf native · key) (build_atoms_join ended)

/-- A quote in front of the line feed does not open the form behind it, and stray and missing
parentheses stay on their side. -/
theorem build_joined_quote :
    let native := ["defun"].contains
    let a := "(f '(x)) ;c\n)'"
    let b := "(g \"x"
    (Document.build native (a ++ "\n")).atoms = (Document.build native a).atoms ∧
      (∀ f ∈ (Document.build native a).root.nested, (Document.build native a).Closed f) ∧
      (Document.build native (a ++ "\n" ++ b)).Joins (Document.build native a)
        (Document.build native b) (a.toList.count '\n' + 1) := by
  intro native a b
  have ended : (Document.build native (a ++ "\n")).atoms = (Document.build native a).atoms := by
    decide +kernel
  have closed := Document.closed_of_all (d := Document.build native a) (by decide +kernel)
  exact ⟨ended, closed, build_joined native a b ended closed⟩

end Ended

end LispIndex
