import LispIndex.Proofs.OutlineRenumbering
import LispIndex.Proofs.Rereading

/-!
Texts without their comments. If blanks stand in the place of every comment, the atoms that are left
stay where they are, and tree, names and scopes are those of the text with comments, with the atoms
renumbered.
-/

namespace LispIndex

def TokenKind.isComment : TokenKind → Bool
  | .blockComment | .lineComment => true
  | _ => false

/-- The blank in the place of a character. Line feeds stay. -/
def blankOut (c : Char) : Char :=
  if c = '\n' then c else ' '

namespace Lexeme

def uncommented (l : Lexeme) : List Char :=
  l.gap ++ if l.token.kind.isComment then l.token.text.map blankOut else l.token.text

/-- The lexemes that are no comments. Comments are part of the gap behind them, and `front` is the
start of the first gap. -/
def fuse (front : List Char) : List Lexeme → List Lexeme
  | [] => []
  | ⟨gap, token⟩ :: rest =>
    if token.kind.isComment then fuse (front ++ gap ++ token.text.map blankOut) rest
    else ⟨front ++ gap, token⟩ :: fuse [] rest

end Lexeme

def uncommented (text : String) : String :=
  let lexing := Lexing.ofText text.toList
  String.ofList (lexing.lexemes.flatMap Lexeme.uncommented ++ lexing.tail)

def Atom.uncommented (a : Atom) : List Char :=
  if a.isComment then a.symbol.toList.map blankOut else a.symbol.toList

namespace Document

def withoutComments (d : Document) : Renumbering :=
  .without fun i => d.atoms[i]?.any Atom.isComment

structure Uncomments (d bare : Document) : Prop where
  atoms : bare.atoms.toList =
    (d.atoms.toList.filter (!·.isComment)).map (Atom.renumber d.withoutComments)
  root : bare.root = d.root.renumber d.withoutComments
  symbols : ∀ key : String,
    bare.symbols[key]? = d.symbols[key]?.map (List.map d.withoutComments.number)
  scopes : ∀ native file, (ScopeTree.build native file bare).unplaced =
    ((ScopeTree.build native file d).renumber d.withoutComments).unplaced

end Document

private theorem isBlank_blankOut (c : Char) : Text.isBlank (blankOut c) = true := by
  unfold blankOut
  split
  next feed => rw [feed]; rfl
  next => rfl

private theorem Position.advance_blankOut (p : Position) (text : List Char) :
    p.advance (text.map blankOut) = p.advance text := by
  have single (p : Position) (c : Char) : p.step (blankOut c) = p.step c := by
    unfold blankOut
    split
    next => rfl
    next other => rw [step, step, if_neg other, if_neg (by decide)]
  rw [advance, advance, List.foldl_map]
  simp only [single]

private theorem Grammar.HasKind.isComment {a : Atom} {kind : TokenKind} (has : HasKind a kind) :
    a.isComment = kind.isComment := by
  obtain ⟨-, -, -, -, block, line⟩ := has
  have opened (block : a.isBlockComment = true) : a.isComment = true :=
    List.isPrefixOf_iff_prefix.mpr
      ((List.prefix_append [';'] ['|']).trans (List.isPrefixOf_iff_prefix.mp block))
  rw [Atom.isLineComment] at line
  cases kind <;> simp_all [TokenKind.isComment]

namespace Lexes

variable {text tail : List Char} {lexemes : List Lexeme}

private theorem head_uncommented (lexes : Lexes text lexemes tail) (d : Char)
    (found : (lexemes.flatMap Lexeme.uncommented ++ tail).head? = some d) :
    text.head? = some d ∨ Token.isDelimiter d = true := by
  cases lexes with
  | blank _ blanks => exact .inl found
  | token gap c rest lexemes tail blanks start more =>
    rw [List.flatMap_cons, Lexeme.uncommented] at found
    cases gap with
    | cons b others => exact .inl found
    -- Only a comment that touches what is before it changes the first character.
    | nil =>
      obtain ⟨body, whole⟩ := Token.split_text c rest
      rw [whole] at found
      dsimp only at found
      split at found
      next =>
        obtain rfl := Option.some.inj found
        exact .inr (Grammar.delimiter_of_blank (isBlank_blankOut c))
      next => exact .inl found

/-- Lexing a text with its comments blanked out leaves the other tokens as they are. -/
theorem uncommented (lexes : Lexes text lexemes tail) (front : List Char)
    (frontBlanks : ∀ b ∈ front, Text.isBlank b = true) :
    ∃ last, Lexes (front ++ (lexemes.flatMap Lexeme.uncommented ++ tail))
      (Lexeme.fuse front lexemes) last := by
  -- `front` holds the blanks of the comments since the last token that stays.
  induction lexes generalizing front with
  | blank tail blanks =>
    exact ⟨_, .blank (front ++ tail) (List.forall_mem_append.mpr ⟨frontBlanks, blanks⟩)⟩
  | token gap c rest lexemes tail blanks start more ih =>
    have gapBlanks : ∀ b ∈ front ++ gap, Text.isBlank b = true :=
      List.forall_mem_append.mpr ⟨frontBlanks, blanks⟩
    by_cases comment : (Token.split c rest).1.kind.isComment = true
    · have blanked : ∀ b ∈ (Token.split c rest).1.text.map blankOut, Text.isBlank b = true :=
        List.forall_mem_map.mpr fun d _ => isBlank_blankOut d
      obtain ⟨last, fused⟩ := ih (front ++ gap ++ (Token.split c rest).1.text.map blankOut)
        (List.forall_mem_append.mpr ⟨gapBlanks, blanked⟩)
      refine ⟨last, ?_⟩
      rw [Lexeme.fuse, if_pos comment]
      simpa [Lexeme.uncommented, comment] using fused
    · have follows : Token.Follows (Token.split c rest).1.kind (Token.split c rest).2
          (lexemes.flatMap Lexeme.uncommented ++ tail) := by
        refine ⟨?_, ?_, ?_⟩
        · intro finished
          rw [finished] at more
          rw [more.of_nil, more.tail_nil]
          rfl
        · intro bare d found
          rcases more.head_uncommented d found with same | delimiter
          · exact Token.split_bare c rest bare d same
          · exact delimiter
        · intro line
          rw [line] at comment
          exact absurd rfl comment
      obtain ⟨last, fused⟩ := ih [] (by simp)
      obtain ⟨body, whole, same⟩ := Token.split_swap c rest _ follows
      have step := Lexes.token (front ++ gap) c _ (Lexeme.fuse [] lexemes) last gapBlanks start
        (by rw [same]; exact fused)
      rw [same] at step
      refine ⟨last, ?_⟩
      rw [Lexeme.fuse, if_neg comment]
      simpa [Lexeme.uncommented, comment, whole] using step

variable {r : Renumbering} {i : Nat}

theorem thinned (lexes : Lexes text lexemes tail) (front : List Char)
    (drops : r.Drops (·.token.kind.isComment) i lexemes) :
    Nesting.Thinned r.drops front.isEmpty i lexemes (Lexeme.fuse front lexemes) := by
  induction lexes generalizing front i with
  | blank => exact .nil _ i
  | token gap c rest lexemes tail blanks start more ih =>
    have here : r.drops i = (Token.split c rest).1.kind.isComment := drops.first
    rw [Lexeme.fuse]
    cases comment : (Token.split c rest).1.kind.isComment with
    | true =>
      -- A comment has at least its semicolon, so there is a gap where it stood.
      obtain ⟨body, whole⟩ := Token.split_text c rest
      have further := ih (front ++ gap ++ (Token.split c rest).1.text.map blankOut) drops.rest
      have filled : (front ++ gap ++ (Token.split c rest).1.text.map blankOut).isEmpty = false := by
        simp [whole]
      rw [filled] at further
      refine .skip _ i _ _ _ (here.trans comment) ?_ ?_ ?_ further
      all_goals
        intro (kind : (Token.split c rest).1.kind = _)
        rw [kind] at comment
        cases comment
    | false =>
      exact .keep _ i gap (front ++ gap) _ _ _ (here.trans comment) (by simp) (ih [] drops.rest)

private theorem atomsFrom_fuse (lexes : Lexes text lexemes tail) (front : List Char)
    (start : Position) (drops : r.Drops (·.token.kind.isComment) i lexemes) :
    atomsFrom (r.number i) start (Lexeme.fuse front lexemes) =
      ((atomsFrom i (start.advance front) lexemes).filter (!·.isComment)).map
        (Atom.renumber r) := by
  induction lexes generalizing front start i with
  | blank => rfl
  | token gap c rest lexemes tail blanks starts more ih =>
    have here : r.drops i = (Token.split c rest).1.kind.isComment := drops.first
    have test := (Grammar.split_hasKind c rest ((start.advance front).advance gap) i).isComment
    rw [Lexeme.fuse, atomsFrom]
    cases comment : (Token.split c rest).1.kind.isComment with
    | true =>
      rw [comment] at here test
      have further := ih (front ++ gap ++ (Token.split c rest).1.text.map blankOut) start drops.rest
      rw [r.next_dropped here, Position.advance_append, Position.advance_append,
        Position.advance_blankOut] at further
      rw [List.filter_cons_of_neg (by simp [test]), ← further, if_pos rfl]
    | false =>
      rw [comment] at here test
      have further := ih []
        (((start.advance front).advance gap).advance (Token.split c rest).1.text) drops.rest
      rw [r.next_kept here] at further
      rw [List.filter_cons_of_pos (by simp [test]), List.map_cons, if_neg Bool.false_ne_true,
        atomsFrom, Position.advance_append, further]
      rfl

private theorem interleave_uncommented (lexes : Lexes text lexemes tail) (start : Position) :
    interleave (lexemes.map Lexeme.gap) ((atomsFrom i start lexemes).map Atom.uncommented) =
      lexemes.flatMap Lexeme.uncommented := by
  induction lexes generalizing i start with
  | blank => rfl
  | token gap c rest lexemes tail blanks starts more ih =>
    have test := (Grammar.split_hasKind c rest (start.advance gap) i).isComment
    rw [atomsFrom, List.map_cons, List.map_cons, interleave, ih, List.flatMap_cons,
      Lexeme.uncommented, Atom.uncommented, test, String.toList_ofList]

end Lexes

section Build

variable (native : String → Bool) (text : String)

theorem build_drops : (Document.build native text).withoutComments.Drops (·.token.kind.isComment) 0
    (Lexing.ofText text.toList).lexemes := by
  intro j
  change (Document.build native text).atoms[0 + j]?.any Atom.isComment = _
  rw [Nat.zero_add]
  cases found : (Document.build native text).atoms[j]? with
  | none =>
    have size := Array.getElem?_eq_none_iff.mp found
    rw [build_size] at size
    rw [List.getElem?_eq_none size]
    rfl
  | some a =>
    obtain ⟨kind, here, has⟩ := build_kind native text j a found
    obtain ⟨lexeme, there, rfl⟩ := Option.map_eq_some_iff.mp here
    rw [there]
    exact has.isComment

private theorem lexemes_uncommented : (Lexing.ofText (uncommented text).toList).lexemes =
    Lexeme.fuse [] (Lexing.ofText text.toList).lexemes := by
  obtain ⟨last, lexes⟩ := (Lexing.ofText_lexes text.toList).uncommented [] (by simp)
  rw [uncommented, String.toList_ofList]
  exact (Lexing.ofText_lexes _).unique lexes

private theorem build_atoms_uncommented : (Document.build native (uncommented text)).atoms.toList =
    ((Document.build native text).atoms.toList.filter (!·.isComment)).map
      (Atom.renumber (Document.build native text).withoutComments) := by
  rw [build_atoms, build_atoms, lexemes_uncommented]
  exact (Lexing.ofText_lexes text.toList).atomsFrom_fuse [] .origin (build_drops native text)

private theorem build_root_uncommented : (Document.build native (uncommented text)).root =
    (Document.build native text).root.renumber (Document.build native text).withoutComments := by
  have thinned := (Lexing.ofText_lexes text.toList).thinned [] (build_drops native text)
  rw [← lexemes_uncommented] at thinned
  exact Form.ofLexemes_renumber rfl thinned

theorem build_keeps : (Document.build native text).withoutComments.Keeps
    (Document.build native text).atoms (Document.build native (uncommented text)).atoms where
  dropped i drops := (Option.any_eq_true _ _).mp drops
  kept i kept := by
    have drops : (Document.build native text).withoutComments.Drops Atom.isComment 0
        (Document.build native text).atoms.toList := by
      intro j
      rw [Nat.zero_add, Array.getElem?_toList]
      rfl
    have place : (Document.build native text).withoutComments.number (0 + i) =
        0 + (Document.build native text).withoutComments.number i := by
      rw [Nat.zero_add, Nat.zero_add]
    rw [← Array.getElem?_toList, build_atoms_uncommented, List.getElem?_map,
      drops.getElem?_filter (j := i) (by rwa [Nat.zero_add]) place, Array.getElem?_toList]

theorem build_opens :
    (Document.build native text).withoutComments.Opens (Document.build native text).root.items := by
  intro f nested
  obtain ⟨i, rest, front, glyph⟩ := (build_worded native text).opens f nested
  refine ⟨i, rest, front, ?_⟩
  change (Document.build native text).atoms[i]?.any Atom.isComment = false
  rcases glyph with ⟨a, found, left⟩ | ⟨a, found, quote⟩
  · rw [found, Option.any_some, Atom.isComment, eq_of_beq left]
    rfl
  · rw [found, Option.any_some, Atom.isComment, eq_of_beq quote]
    rfl

theorem SymbolTable.getElem?_moved (atoms others : Array Atom) (key : String) (move : Nat → Nat)
    (places : placesOf native others.toList key =
      (placesOf native atoms.toList key).map move) :
    (ofAtoms native others)[key]? = (ofAtoms native atoms)[key]?.map (List.map move) := by
  rw [getElem?_ofAtoms, getElem?_ofAtoms, places]
  by_cases none : placesOf native atoms.toList key = [] <;> simp [none]

private theorem placesOf_uncommented (r : Renumbering) (atoms : List Atom) (key : String) :
    SymbolTable.placesOf native ((atoms.filter (!·.isComment)).map (Atom.renumber r)) key =
      (SymbolTable.placesOf native atoms key).map r.number := by
  have same (a : Atom) : ((a.isTracked native && a.name == key) && !a.isComment) =
      (a.isTracked native && a.name == key) := by
    cases comment : a.isComment with
    | true => simp [Atom.isTracked_comment comment]
    | false => simp
  rw [SymbolTable.placesOf, SymbolTable.placesOf, List.filter_map, List.filter_filter,
    List.map_map, List.map_map]
  exact congrArg (List.map _) (List.filter_congr fun a _ => same a)

private theorem uncommented_spaced :
    ∃ gaps tail, (Document.build native text).Spaced text.toList gaps tail ∧
      (uncommented text).toList = interleave gaps
        ((Document.build native text).atoms.toList.map Atom.uncommented) ++ tail := by
  refine ⟨_, _, build_spaced native text, ?_⟩
  rw [build_atoms, (Lexing.ofText_lexes text.toList).interleave_uncommented]
  exact String.toList_ofList

/-- A comment is as good as blanks. With blanks in the place of its comments, a text has the other
atoms, the tree without the comments, and the same names and scopes, all up to the numbers of atoms
and the ranges of hosts. -/
theorem build_uncommented :
    (∃ gaps tail, (Document.build native text).Spaced text.toList gaps tail ∧
      (uncommented text).toList = interleave gaps
        ((Document.build native text).atoms.toList.map Atom.uncommented) ++ tail) ∧
      (Document.build native text).Uncomments (Document.build native (uncommented text)) := by
  refine ⟨uncommented_spaced native text, build_atoms_uncommented native text,
    build_root_uncommented native text, ?_, ?_⟩
  · intro key
    refine SymbolTable.getElem?_moved native _ _ key _ ?_
    rw [← placesOf_uncommented]
    exact congrArg (SymbolTable.placesOf native · key) (build_atoms_uncommented native text)
  · refine (build_keeps native text).build_unplaced ?_ (build_opens native text)
    exact congrArg Form.items (build_root_uncommented native text)

end Build

end LispIndex
