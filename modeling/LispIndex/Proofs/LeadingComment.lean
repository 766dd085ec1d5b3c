import LispIndex.Proofs.FormHeads
import LispIndex.Proofs.Joining
import LispIndex.Proofs.NameTable

/-!
A comment in front of a text. It moves the atoms of the text by one place and some lines, and what
is found by scanning them moves along. Only the form that the text starts with can have the comment
beside it, and does so if the comment ends on the line above.
-/

namespace LispIndex

namespace Export

structure Behind (comment : Atom) (lines : Nat) (atoms whole : Array Atom) : Prop where
  isComment : comment.isComment = true
  first : whole[0]? = some comment
  rest : ∀ i, whole[i + 1]? = atoms[i]?.map (Atom.moved 1 lines)
  size : whole.size = atoms.size + 1

theorem occursIn_iff {word : List Char} (filled : word ≠ []) (text : List Char) :
    occursIn word text = true ↔ word <:+: text := by
  induction text with
  | nil => simp [occursIn, filled]
  | cons c rest ih => rw [occursIn, Bool.or_eq_true, ih, List.isPrefixOf_iff_prefix,
      List.infix_cons_iff]

theorem openParenBelow_succ (atoms : Array Atom) (closed index : Nat) :
    openParenBelow atoms closed (index + 1) =
      atoms[index]?.elim (openParenBelow atoms closed index) fun a =>
        if a.isRightParen then openParenBelow atoms (closed + 1) index
        else if a.isLeftParen then
          if closed = 0 then some index else openParenBelow atoms (closed - 1) index
        else openParenBelow atoms closed index := by
  rw [openParenBelow]
  cases atoms[index]? <;> rfl

private theorem openParenBelow_comment {atoms : Array Atom} (closed : Nat) {index : Nat} {a : Atom}
    (here : atoms[index]? = some a) (comment : a.isComment = true) :
    openParenBelow atoms closed (index + 1) = openParenBelow atoms closed index := by
  have other (text : String) (apart : text.toList.head? ≠ some ';') :
      ¬ (a.symbol == text) = true := by
    intro symbol
    rw [Atom.not_comment_of_symbol symbol apart] at comment
    cases comment
  rw [openParenBelow_succ, here]
  exact (if_neg (other ")" (by decide))).trans (if_neg (other "(" (by decide)))

private theorem openParenBelow_comments {atoms : Array Atom} (closed : Nat) {first index : Nat}
    (low : first ≤ index) (comments : ∀ i, first ≤ i → i < index →
      ∃ a, atoms[i]? = some a ∧ a.isComment = true) :
    openParenBelow atoms closed index = openParenBelow atoms closed first := by
  induction index, low using Nat.le_induction with
  | base => rfl
  | succ index low ih =>
    obtain ⟨a, here, comment⟩ := comments index low (Nat.lt_succ_self index)
    rw [openParenBelow_comment closed here comment]
    exact ih fun i least most => comments i least (Nat.lt_succ_of_lt most)

private theorem enclosingParen?_head {atoms : Array Atom} {index head : Nat}
    (found : formHead? (.scan atoms) atoms index = some head) :
    enclosingParen? atoms head = enclosingParen? atoms index := by
  obtain ⟨paren, enclosing, code⟩ := Option.bind_eq_some_iff.mp found
  obtain ⟨behind, ⟨a, here, -⟩, comments⟩ := nextCode?_eq_some_iff.mp code
  obtain ⟨-, b, there, left⟩ := openParenBelow_spec enclosing
  have bound := (Array.getElem?_eq_some_iff.mp here).1
  have right : ¬ b.isRightParen = true := by
    rw [Atom.isLeftParen, beq_iff_eq] at left
    simp [Atom.isRightParen, left]
  rw [enclosingParen?, Nat.min_eq_left (Nat.le_of_lt bound),
    openParenBelow_comments 0 behind comments, openParenBelow_succ, there, Option.elim_some,
    if_neg right, if_pos left, if_pos rfl]
  exact enclosing.symm

def isMarked (atoms : Array Atom) (link : Nat) : Bool :=
  atoms[link]?.any fun a => holdsMarker a.symbol.toList

def Context.behind (whole : Array Atom) (more : List Nat) (c : Context) : Context :=
  ⟨c.links.map (· + 1) ++ more, c.exported || more.any (isMarked whole)⟩

/-- The comment that stands before all other atoms, for a name in a form directly below it. -/
def above (whole atoms : Array Atom) (index : Nat) : List Nat :=
  if enclosingParen? atoms index = some 0 then (commentBehind? whole 1).toList else []

namespace Behind

variable {comment : Atom} {lines : Nat} {atoms whole : Array Atom}
  (behind : Behind comment lines atoms whole)

include behind

private theorem any {test : Atom → Bool} (blind : ∀ a : Atom, test (a.moved 1 lines) = test a)
    (i : Nat) :
    whole[i + 1]?.any test = atoms[i]?.any test := by
  rw [behind.rest, Option.any_map]
  exact congrArg (Option.any · atoms[i]?) (funext blind)

private theorem openParenBelow (closed index : Nat) :
    Export.openParenBelow whole closed (index + 1) =
    (Export.openParenBelow atoms closed index).map (· + 1) := by
  induction index generalizing closed with
  | zero => exact openParenBelow_comment closed behind.first behind.isComment
  | succ index ih =>
    rw [openParenBelow_succ whole closed (index + 1), openParenBelow_succ atoms closed index,
      behind.rest]
    cases atoms[index]? with
    | none => exact ih closed
    | some a =>
      simp only [Option.map_some, Option.elim_some, ih]
      change (if a.isRightParen then _ else if a.isLeftParen then _ else _) = _
      split_ifs <;> rfl

private theorem enclosingParen? (index : Nat) : Export.enclosingParen? whole (index + 1) =
    (Export.enclosingParen? atoms index).map (· + 1) := by
  rw [Export.enclosingParen?, behind.size, Nat.add_min_add_right, behind.openParenBelow]
  rfl

private theorem codeFrom (index count : Nat) : Export.codeFrom whole (index + 1) count =
    (Export.codeFrom atoms index count).map (· + 1) := by
  induction count generalizing index with
  | zero => rfl
  | succ count ih =>
    have code : isCode whole (index + 1) = isCode atoms index := behind.any (fun _ => rfl) index
    rw [Export.codeFrom, Export.codeFrom, code, ih]
    split_ifs <;> rfl

private theorem nextCode? (index : Nat) : Export.nextCode? whole (index + 1) =
    (Export.nextCode? atoms index).map (· + 1) := by
  rw [Export.nextCode?, behind.size, Nat.add_sub_add_right, behind.codeFrom]
  rfl

private theorem commentFrom (line index count : Nat) :
    Export.commentFrom whole (line + lines) (index + 1) count =
      (Export.commentFrom atoms line index count).map (· + 1) := by
  induction count generalizing index with
  | zero => rfl
  | succ count ih =>
    rw [Export.commentFrom, Export.commentFrom, behind.rest]
    cases atoms[index]? with
    | none => rfl
    | some a =>
      have same : (a.moved 1 lines).line = line + lines ↔ a.line = line := Nat.add_right_cancel_iff
      simp only [Option.map_some, same, ih]
      change (if a.line = line then if a.isComment then _ else _ else _) = _
      split_ifs <;> rfl

private theorem commentAhead? (index : Nat) : Export.commentAhead? whole (index + 1) =
    (Export.commentAhead? atoms index).map (· + 1) := by
  rw [Export.commentAhead?, Export.commentAhead?, behind.rest, behind.size, Nat.add_sub_add_right]
  cases atoms[index]? with
  | none => rfl
  | some a => exact behind.commentFrom a.line (index + 1) _

/-- The comment can only be above the first of the atoms. -/
theorem commentBehind? (paren : Nat) : Export.commentBehind? whole (paren + 1) =
    if paren = 0 then Export.commentBehind? whole 1
    else (Export.commentBehind? atoms paren).map (· + 1) := by
  cases paren with
  | zero => rfl
  | succ paren =>
    rw [if_neg (Nat.succ_ne_zero paren), Export.commentBehind?, Export.commentBehind?,
      if_neg (Nat.succ_ne_zero _), if_neg (Nat.succ_ne_zero _), Nat.add_sub_cancel,
      Nat.add_sub_cancel, behind.rest, behind.rest]
    cases atoms[paren]? with
    | none => rfl
    | some before =>
      cases atoms[paren + 1]? with
      | none => rfl
      | some a =>
        have last : (before.moved 1 lines).lastLine = before.lastLine + lines :=
          congrArg Position.line (before.start.advance_down lines before.symbol.toList)
        have same : (before.lastLine + lines + 1 == a.line + lines) =
            (before.lastLine + 1 == a.line) := by
          rw [Nat.add_right_comm, Bool.eq_iff_iff, beq_iff_eq, beq_iff_eq, Nat.add_right_cancel_iff]
        simp only [Option.map_some, last]
        change (if before.isComment && (before.lastLine + lines + 1 == a.line + lines) then _
          else _) = _
        rw [same]
        split_ifs <;> rfl

private theorem formHeadNamed? (names : List String) (index : Nat) :
    Export.formHeadNamed? (.scan whole) whole names (index + 1) =
      (Export.formHeadNamed? (.scan atoms) atoms names index).map (· + 1) := by
  have head : formHead? (.scan whole) whole (index + 1) =
      (formHead? (.scan atoms) atoms index).map (· + 1) := by
    change (Export.enclosingParen? whole (index + 1)).bind (Export.nextCode? whole) =
      ((Export.enclosingParen? atoms index).bind (Export.nextCode? atoms)).map (· + 1)
    rw [behind.enclosingParen?]
    cases Export.enclosingParen? atoms index with
    | none => rfl
    | some paren => exact behind.nextCode? paren
  rw [Export.formHeadNamed?, Export.formHeadNamed?, head]
  cases formHead? (.scan atoms) atoms index with
  | none => rfl
  | some first =>
    rw [Option.map_some, Option.filter_some, Option.filter_some, behind.any fun _ => rfl]
    split_ifs <;> rfl

theorem context (source head : Nat) :
    Export.context (.scan whole) whole (source + 1) (head + 1) =
      (Export.context (.scan atoms) atoms source head).behind whole (above whole atoms head) := by
  have marks (link : Nat) : isMarked whole (link + 1) = isMarked atoms link :=
    behind.any (fun _ => rfl) link
  have links : (Export.context (.scan whole) whole (source + 1) (head + 1)).links =
      (Export.context (.scan atoms) atoms source head).links.map (· + 1) ++
        above whole atoms head := by
    change (Export.commentAhead? whole (source + 1)).toList ++
      ((Export.enclosingParen? whole (head + 1)).bind (Export.commentBehind? whole)).toList =
        ((Export.commentAhead? atoms source).toList ++
          ((Export.enclosingParen? atoms head).bind (Export.commentBehind? atoms)).toList).map
            (· + 1) ++ above whole atoms head
    rw [behind.commentAhead?, behind.enclosingParen?, above, List.map_append, Option.toList_map]
    cases Export.enclosingParen? atoms head with
    | none => simp
    | some paren =>
      rw [Option.map_some, Option.bind_some, Option.bind_some, behind.commentBehind?]
      cases paren with
      | zero => simp [Export.commentBehind?]
      | succ paren => simp [Option.toList_map]
  have exported : (Export.context (.scan whole) whole (source + 1) (head + 1)).exported =
      ((Export.context (.scan atoms) atoms source head).exported ||
        (above whole atoms head).any (isMarked whole)) := by
    change (Export.context (.scan whole) whole (source + 1) (head + 1)).links.any
      (isMarked whole) = _
    rw [links, List.any_append, List.any_map]
    exact congrArg (fun mark => List.any _ mark || _) (funext marks)
  rw [Context.behind, ← links, ← exported]

private theorem contexts (names : List String) (index : Nat) {test other : Nat → Bool}
    (agrees : ∀ head, test (head + 1) = other head) :
    ((Export.formHeadNamed? (.scan whole) whole names (index + 1)).filter test).map
        (Export.context (.scan whole) whole (index + 1)) =
      (((Export.formHeadNamed? (.scan atoms) atoms names index).filter other).map
        (Export.context (.scan atoms) atoms index)).map
          (Context.behind whole (above whole atoms index)) := by
  rw [behind.formHeadNamed?]
  cases found : Export.formHeadNamed? (.scan atoms) atoms names index with
  | none => rfl
  | some head =>
    have around := enclosingParen?_head (formHeadNamed?_spec found).1
    rw [Option.map_some, Option.filter_some, Option.filter_some, agrees]
    split_ifs
    · rw [Option.map_some, Option.map_some, Option.map_some, behind.context, above, around, above]
    · rfl

private theorem bindingContext? (index : Nat) :
    Export.bindingContext? (.scan whole) whole (index + 1) =
      (Export.bindingContext? (.scan atoms) atoms index).map
        (Context.behind whole (above whole atoms index)) := by
  have defined : Export.defunContext? (.scan whole) whole (index + 1) =
      (Export.defunContext? (.scan atoms) atoms index).map
        (Context.behind whole (above whole atoms index)) := by
    apply behind.contexts
    intro head
    rw [behind.nextCode?]
    cases Export.nextCode? atoms head <;> simp
  -- The first atom has none before it to look at, so it is apart: it is in no form.
  cases index with
  | zero =>
    have outside : Export.enclosingParen? atoms 0 = none := by
      rw [Export.enclosingParen?, Nat.zero_min, Export.openParenBelow]
    have none (names : List String) :
        Export.formHeadNamed? (.scan whole) whole names (0 + 1) = none := by
      rw [behind.formHeadNamed?, Export.formHeadNamed?, formHead?, Surroundings.scan]
      dsimp only
      rw [outside]
      rfl
    rw [Export.bindingContext?, Export.defunContext?, defunHead?, none, setqContext?, setqHead?,
      none]
    exact ite_self _
  | succ index =>
    have assigned : Export.setqContext? (.scan whole) whole (index + 1 + 1) =
        (Export.setqContext? (.scan atoms) atoms (index + 1)).map
          (Context.behind whole (above whole atoms (index + 1))) := by
      apply behind.contexts
      intro head
      rw [Nat.add_sub_cancel, Nat.add_sub_cancel, behind.any fun _ => rfl]
      rfl
    have binds : canBind whole (index + 1 + 1) = canBind atoms (index + 1) := by
      rw [canBind, canBind, Nat.add_sub_cancel, Nat.add_sub_cancel, behind.any fun _ => rfl]
      rfl
    rw [Export.bindingContext?, Export.bindingContext?, binds, defined, assigned]
    split_ifs
    · rw [Option.map_or]
    · rfl

end Behind

/-- A form defines one name, and assigns to none. -/
theorem eq_of_defunContext? {atoms : Array Atom} {m i : Nat} {c other : Context}
    (defined : defunContext? (.scan atoms) atoms m = some c)
    (bound : bindingContext? (.scan atoms) atoms i = some other)
    (together : enclosingParen? atoms i = enclosingParen? atoms m) : i = m := by
  obtain ⟨head, kept, -⟩ := Option.map_eq_some_iff.mp defined
  obtain ⟨heading, next⟩ := Option.filter_eq_some_iff.mp kept
  obtain ⟨first, -, a, here, named⟩ := formHeadNamed?_spec heading
  have shared : formHead? (.scan atoms) atoms i = some head := by
    rw [← first, formHead?, formHead?]
    exact congrArg (Option.bind · (nextCode? atoms)) together
  rw [bindingContext?] at bound
  split_ifs at bound
  rcases Option.or_eq_some_iff.mp bound with again | ⟨-, assigned⟩
  · obtain ⟨other, chosen, -⟩ := Option.map_eq_some_iff.mp again
    obtain ⟨found, following⟩ := Option.filter_eq_some_iff.mp chosen
    obtain rfl := Option.some.inj (shared.symm.trans (formHeadNamed?_spec found).1)
    exact Option.some.inj ((beq_iff_eq.mp following).symm.trans (beq_iff_eq.mp next))
  · obtain ⟨other, chosen, -⟩ := Option.map_eq_some_iff.mp assigned
    obtain ⟨found, -⟩ := Option.filter_eq_some_iff.mp chosen
    obtain ⟨again, -, b, there, spelled⟩ := formHeadNamed?_spec found
    obtain rfl := Option.some.inj (shared.symm.trans again)
    obtain rfl := Option.some.inj (here.symm.trans there)
    simp only [List.any_cons, List.any_nil, Bool.or_false, Bool.or_eq_true, Text.sameName,
      beq_iff_eq] at named spelled
    rw [spelled] at named
    exact absurd named (by decide)

private theorem canBind_of_defunContext? {atoms : Array Atom} {m : Nat} {c : Context}
    (defined : defunContext? (.scan atoms) atoms m = some c) : canBind atoms m = true := by
  obtain ⟨head, kept, -⟩ := Option.map_eq_some_iff.mp defined
  obtain ⟨heading, next⟩ := Option.filter_eq_some_iff.mp kept
  obtain ⟨first, -, a, here, named⟩ := formHeadNamed?_spec heading
  obtain ⟨behind, -, comments⟩ := nextCode?_eq_some_iff.mp (beq_iff_eq.mp next)
  refine canBind_iff.mpr ⟨Nat.zero_lt_of_lt behind, ?_⟩
  rintro ⟨b, there, left⟩
  rcases Nat.eq_or_lt_of_le (Nat.le_sub_one_of_lt behind) with rfl | later
  · obtain rfl := Option.some.inj (here.symm.trans there)
    have plain := Atom.isOpening_of_isOneOf (by decide) named
    rw [Atom.isOpening, left, Bool.or_true, Bool.true_or] at plain
    cases plain
  · obtain ⟨e, same, comment⟩ := comments (m - 1) later (by omega)
    obtain rfl := Option.some.inj (same.symm.trans there)
    rw [Atom.not_comment_of_symbol left (by decide)] at comment
    cases comment

end Export

section Texts

variable (native : String → Bool)

private theorem Lexes.front {text tail : List Char} {lexemes : List Lexeme}
    (lexes : Lexes text lexemes tail) {c : Char} {rest : List Char} (front : text = c :: rest)
    (word : Text.isBlank c = false) :
    ∃ others, lexemes = ⟨[], (Token.split c rest).1⟩ :: others := by
  cases lexes with
  | blank _ blanks =>
    have blank := blanks c (by rw [front]; exact List.mem_cons_self)
    rw [word] at blank
    cases blank
  | token gap d more lexemes tail blanks start others =>
    cases gap with
    | nil =>
      obtain ⟨rfl, rfl⟩ := List.cons.inj front
      exact ⟨lexemes, rfl⟩
    | cons b gap =>
      obtain ⟨rfl, -⟩ := List.cons.inj front
      rw [blanks b List.mem_cons_self] at word
      cases word

private theorem build_first {text : String} {c : Char} {rest : List Char}
    (front : text.toList = c :: rest) (word : Text.isBlank c = false) :
    (Document.build native text).atoms[0]? =
      some ⟨String.ofList (Token.split c rest).1.text, .origin, 0, [], false⟩ := by
  obtain ⟨others, split⟩ := (Lexing.ofText_lexes text.toList).front front word
  rw [← Array.getElem?_toList, build_atoms, split]
  rfl

private theorem build_leftParen {text : String} (starts : text.toList.head? = some '(') :
    (Document.build native text).atoms[0]? = some ⟨"(", .origin, 0, [], false⟩ := by
  obtain ⟨rest, front⟩ := List.head?_eq_some_iff.mp starts
  exact build_first native front (by decide)

private theorem build_atoms_feeds (lines : Nat) (text : String) :
    (Document.build native (String.ofList (List.replicate lines '\n') ++ text)).atoms.toList =
      (Document.build native text).atoms.toList.map (Atom.moved 0 lines) := by
  have blanks : ∀ b ∈ List.replicate lines '\n', Text.isBlank b = true := by
    intro b member
    rw [List.eq_of_mem_replicate member]
    decide
  obtain ⟨last, lexes⟩ := (Lexing.ofText_lexes text.toList).behind blanks
  have below :
      Position.origin.advance (List.replicate lines '\n') = Position.origin.down lines := by
    rw [Position.advance_origin, List.count_replicate_self, List.reverse_replicate]
    cases lines <;> simp [Position.down, Position.origin, List.replicate_succ]
  have joined : (String.ofList (List.replicate lines '\n') ++ text).toList =
      List.replicate lines '\n' ++ text.toList := by
    rw [String.toList_append, String.toList_ofList]
  rw [build_atoms, build_atoms, joined, (Lexing.ofText_lexes _).unique lexes, atomsFrom_behind,
    below]
  exact atomsFrom_moved 0 lines 0 .origin _

end Texts

/-- A text that is one comment, which a line feed behind it does not become part of. -/
structure LoneComment (native : String → Bool) (text : String) : Prop where
  single : ∃ a, (Document.build native text).atoms = #[a] ∧ a.symbol = text ∧ a.isComment = true
  ended : (Document.build native (text ++ "\n")).atoms = (Document.build native text).atoms

namespace Document

structure NamesFirst (d : Document) (m : Nat) : Prop where
  first : ∃ span items rest, d.root.items = .form span items :: rest ∧ .atom m ∈ items
  defined : (Export.defunContext? (.scan d.atoms) d.atoms m).isSome = true
  listed : d.Lists m

/-- A document in which the name at `m` has the comments that it has in another one, which is one
atom shorter, and `more` behind them, while all other names have the same. -/
structure Adds (whole own : Document) (m : Nat) (more : List Nat) (marked : Prop) : Prop where
  size : whole.atoms.size = own.atoms.size + 1
  symbols : ∀ i, whole.atoms[i + 1]?.map Atom.symbol = own.atoms[i]?.map Atom.symbol
  name : ∀ a b, own.atoms[m]? = some a → whole.atoms[m + 1]? = some b →
    (b.exported = true ↔ a.exported = true ∨ marked) ∧ b.links = a.links.map (· + 1) ++ more
  others : ∀ i a b, i ≠ m → own.atoms[i]? = some a → whole.atoms[i + 1]? = some b →
    b.exported = a.exported ∧ b.links = a.links.map (· + 1)

variable {d whole : Document} {native : String → Bool} {comment : Atom} {lines : Nat}

private theorem context?_behind (behind : Export.Behind comment lines d.atoms whole.atoms)
    (sourced : d.Sourced) (table : d.symbols = .ofAtoms native d.atoms)
    (placed : whole.Sourced) (listed : whole.symbols = .ofAtoms native whole.atoms) (i : Nat) :
    whole.context? (i + 1) = (d.context? i).map
      (Export.Context.behind whole.atoms (Export.above whole.atoms d.atoms i)) := by
  have lists : i + 1 ∈ whole.symbolIndices ↔ i ∈ d.symbolIndices := by
    rw [mem_symbolIndices, mem_symbolIndices, placed.lists_iff listed, sourced.lists_iff table,
      ← Option.any_eq_true, ← Option.any_eq_true, behind.any fun _ => rfl]
  rw [context?, context?]
  by_cases here : i ∈ d.symbolIndices
  · rw [if_pos here, if_pos (lists.mpr here)]
    exact behind.bindingContext? i
  · rw [if_neg here, if_neg (mt lists.mp here)]
    rfl

private theorem adds_behind (behind : Export.Behind comment lines d.atoms whole.atoms)
    (contexts : ∀ i, whole.context? (i + 1) = (d.context? i).map
      (Export.Context.behind whole.atoms (Export.above whole.atoms d.atoms i)))
    (unmarked : d.Unmarked) (bare : whole.Unmarked) {m : Nat} {c : Export.Context}
    (defined : Export.defunContext? (.scan d.atoms) d.atoms m = some c) (named : d.Lists m)
    (first : Export.enclosingParen? d.atoms m = some 0) :
    whole.annotate.1.Adds d.annotate.1 m (Export.commentBehind? whole.atoms 1).toList
      ((Export.commentBehind? whole.atoms 1).toList.any (Export.isMarked whole.atoms) = true) := by
  have sizes (e : Document) : e.annotate.1.atoms.size = e.atoms.size := (marks_atoms _ e.atoms).1
  refine ⟨?_, ?_, ?_, ?_⟩
  · rw [sizes, sizes, behind.size]
  · intro i
    rw [annotate_map _ _ fun _ _ => rfl, annotate_map _ _ fun _ _ => rfl, behind.rest,
      Option.map_map]
    rfl
  · intro a b here there
    have context : d.context? m = some c := by
      rw [context?, if_pos (mem_symbolIndices.mpr named), Export.bindingContext?,
        if_pos (Export.canBind_of_defunContext? defined), defined, Option.some_or]
    obtain ⟨links, exported⟩ := unmarked.marks here
    obtain ⟨moved, marked⟩ := bare.marks there
    rw [contexts, context, Export.above, if_pos first] at moved marked
    rw [context] at links exported
    rw [links, exported, moved, marked]
    exact ⟨Bool.or_eq_true_iff, rfl⟩
  · intro i a b other here there
    obtain ⟨links, exported⟩ := unmarked.marks here
    obtain ⟨moved, marked⟩ := bare.marks there
    rw [contexts] at moved marked
    cases context : d.context? i with
    | none =>
      rw [context] at links exported moved marked
      rw [links, exported, moved, marked]
      exact ⟨rfl, rfl⟩
    | some e =>
      -- The comment is beside the names of the first form only, and that form has just one.
      have apart : ¬ Export.enclosingParen? d.atoms i = some 0 := fun together =>
        other (Export.eq_of_defunContext? defined (of_context? context).2.2
          (together.trans first.symm))
      rw [context, Export.above, if_neg apart] at moved marked
      rw [context] at links exported
      rw [links, exported, moved, marked]
      exact ⟨Bool.or_false _, List.append_nil _⟩

end Document

section Main

variable {native : String → Bool} {comment text : String} {m lines : Nat}

private theorem Export.Behind.of_toList {front : Atom} {atoms whole : Array Atom}
    (isComment : front.isComment = true)
    (joined : whole.toList = front :: atoms.toList.map (Atom.moved 1 lines)) :
    Behind front lines atoms whole where
  isComment
  first := by rw [← Array.getElem?_toList, joined, List.getElem?_cons_zero]
  rest i := by
    rw [← Array.getElem?_toList, joined, List.getElem?_cons_succ, List.getElem?_map,
      Array.getElem?_toList]
  size := by
    rw [← Array.length_toList, joined, List.length_cons, List.length_map, Array.length_toList]

private theorem LoneComment.atoms (lone : LoneComment native comment) :
    (Document.build native comment).atoms = #[⟨comment, .origin, 0, [], false⟩] ∧
      (⟨comment, .origin, 0, [], false⟩ : Atom).isComment = true := by
  obtain ⟨a, single, symbol, isComment⟩ := lone.single
  obtain ⟨rest, front⟩ := List.isPrefixOf_iff_prefix.mp isComment
  rw [symbol] at front
  have first := build_first native front.symm (by decide)
  rw [single] at first
  obtain rfl := Option.some.inj first
  rw [single, ← symbol]
  exact ⟨rfl, isComment⟩

theorem LoneComment.behind (lone : LoneComment native comment) (text : String)
    (apart : 0 < lines) :
    Export.Behind ⟨comment, .origin, 0, [], false⟩ (comment.toList.count '\n' + lines)
      (Document.build native text).atoms
      (Document.build native
        (comment ++ String.ofList (List.replicate lines '\n') ++ text)).atoms := by
  obtain ⟨atoms, isComment⟩ := lone.atoms
  obtain ⟨more, rfl⟩ := Nat.exists_eq_succ_of_ne_zero apart.ne'
  -- One line feed ends the comment, the others stand before the text.
  have split : comment ++ String.ofList (List.replicate (more + 1) '\n') ++ text =
      comment ++ "\n" ++ (String.ofList (List.replicate more '\n') ++ text) := by
    rw [← String.toList_inj]
    simp [String.toList_append, List.replicate_succ]
  apply Export.Behind.of_toList isComment
  rw [split, build_atoms_join lone.ended, build_atoms_feeds, List.map_map, atoms]
  have moved : Atom.moved 1 (comment.toList.count '\n' + 1) ∘ Atom.moved 0 more =
      Atom.moved 1 (comment.toList.count '\n' + (more + 1)) := by
    funext a
    simp only [Function.comp, Atom.moved, Position.down, Nat.add_zero]
    congr 2
    omega
  exact congrArg (fun move => _ :: List.map move _) moved

private theorem Document.NamesFirst.enclosing (names : (Document.build native text).NamesFirst m)
    (starts : text.toList.head? = some '(') :
    Export.enclosingParen? (Document.build native text).atoms m = some 0 := by
  have sourced := build_sourced native text
  obtain ⟨span, items, rest, root, item⟩ := names.first
  have nested : ⟨span, items⟩ ∈ (Document.build native text).root.nested := by
    rw [Form.nested, root]
    exact Node.mem_formsOf List.mem_cons_self
  obtain ⟨i, inner, glyphs, -⟩ := (build_worded native text).opens _ nested
  have covers := sourced.covers
  rw [root] at covers
  obtain ⟨middle, inside, -⟩ := covers.of_form
  rw [show items = .atom i :: inner from glyphs] at inside
  obtain ⟨rfl, -⟩ := inside.of_atom
  obtain ⟨c, defined⟩ := Option.isSome_iff_exists.mp names.defined
  have positive := (Export.canBind_iff.mp (Export.canBind_of_defunContext? defined)).1
  have opens : (Document.build native text).OpensAt ⟨span, items⟩ 0 0 := by
    refine ⟨⟨_, build_leftParen native starts, rfl⟩, ?_, .inl rfl⟩
    rw [glyphs]
    rfl
  exact (build_reads native text).enclosingParen?_item sourced nested opens item positive

private theorem commentBehind?_first (lone : LoneComment native comment)
    (starts : text.toList.head? = some '(') (apart : 0 < lines) :
    Export.commentBehind? (Document.build native
      (comment ++ String.ofList (List.replicate lines '\n') ++ text)).atoms 1 =
        if lines = 1 then some 0 else none := by
  have behind := lone.behind text apart
  have second := behind.rest 0
  rw [build_leftParen native starts, Option.map_some] at second
  rw [Export.commentBehind?, if_neg Nat.one_ne_zero, behind.first, second]
  have last : (⟨comment, .origin, 0, [], false⟩ : Atom).lastLine = comment.toList.count '\n' :=
    congrArg Position.line (Position.advance_origin comment.toList)
  have adjacent : (comment.toList.count '\n' + 1 == 0 + (comment.toList.count '\n' + lines)) =
      decide (lines = 1) := by
    rw [Bool.eq_iff_iff, beq_iff_eq, decide_eq_true_iff]
    omega
  simp only [behind.isComment, last, Bool.true_and]
  change (if (_ == 0 + (comment.toList.count '\n' + lines)) = true then _ else _) = _
  rw [adjacent]
  simp only [decide_eq_true_iff]

/-- A comment before a text that starts with a definition is beside the name that is defined, if it
is on the line above; and all else that is marked in the text stays as it is. -/
theorem parse_behind_comment (lone : LoneComment native comment)
    (starts : text.toList.head? = some '(') (names : (Document.build native text).NamesFirst m)
    (apart : 0 < lines) :
    (Document.parse native (comment ++ String.ofList (List.replicate lines '\n') ++ text)).Adds
      (Document.parse native text) m (if lines = 1 then [0] else [])
      (lines = 1 ∧ "@global".toList <:+: comment.toList.map Char.toLower) := by
  have behind := lone.behind text apart
  obtain ⟨c, defined⟩ := Option.isSome_iff_exists.mp names.defined
  have adds := Document.adds_behind behind
    (Document.context?_behind behind (build_sourced native text) rfl (build_sourced native _) rfl)
    (build_unmarked native text) (build_unmarked native _) defined names.listed
    (names.enclosing starts)
  have marked : Export.isMarked (Document.build native
      (comment ++ String.ofList (List.replicate lines '\n') ++ text)).atoms 0 = true ↔
        "@global".toList <:+: comment.toList.map Char.toLower := by
    rw [Export.isMarked, behind.first, Option.any_some, Export.holdsMarker]
    exact Export.occursIn_iff (by decide) _
  have links : (if lines = 1 then some 0 else none).toList = if lines = 1 then [0] else [] := by
    split_ifs <;> rfl
  have exports : ((if lines = 1 then [0] else []).any (Export.isMarked (Document.build native
      (comment ++ String.ofList (List.replicate lines '\n') ++ text)).atoms) = true) ↔
        lines = 1 ∧ "@global".toList <:+: comment.toList.map Char.toLower := by
    split_ifs with adjacent
    · rw [List.any_cons, List.any_nil, Bool.or_false, marked]
      exact (and_iff_right adjacent).symm
    · exact iff_of_false Bool.false_ne_true fun both => adjacent both.1
  rw [commentBehind?_first lone starts apart, links, exports] at adds
  exact adds

private theorem Document.exists_first {d : Document}
    (holds : (d.root.items.head?.bind Node.form?).any (·.atoms.contains m) = true) :
    ∃ span items rest, d.root.items = .form span items :: rest ∧ .atom m ∈ items := by
  obtain ⟨f, found, member⟩ := (Option.any_eq_true _ _).mp holds
  obtain ⟨node, first, same⟩ := Option.bind_eq_some_iff.mp found
  obtain ⟨rest, items⟩ := List.head?_eq_some_iff.mp first
  cases node with
  | atom index => cases same
  | form span inner =>
    obtain rfl := Option.some.inj same
    exact ⟨span, inner, rest, items, Form.mem_atoms.mp (List.contains_iff_mem.mp member)⟩

theorem parse_behind_comment_block :
    let native := ["defun"].contains
    let comment := ";|\n@Global|;"
    let text := "(defun f () 1)"
    LoneComment native comment ∧ (Document.build native text).NamesFirst 2 ∧
      (Document.parse native (comment ++ String.ofList (List.replicate 1 '\n') ++ text)).Adds
        (Document.parse native text) 2 [0]
        (1 = 1 ∧ "@global".toList <:+: comment.toList.map Char.toLower) := by
  intro native comment text
  have lone : LoneComment native comment :=
    ⟨⟨⟨comment, .origin, 0, [], false⟩, by decide +kernel, rfl, by decide +kernel⟩,
      by decide +kernel⟩
  have listed : (Document.build native text).Lists 2 :=
    ((build_sourced native text).lists_iff rfl).mpr
      ⟨⟨"f", ⟨0, 7⟩, 2, [], false⟩, by decide +kernel, by decide +kernel⟩
  have names : (Document.build native text).NamesFirst 2 :=
    ⟨Document.exists_first (by decide +kernel), by decide +kernel, listed⟩
  have starts : text.toList.head? = some '(' := by decide +kernel
  exact ⟨lone, names, parse_behind_comment lone starts names Nat.one_pos⟩

end Main

end LispIndex
