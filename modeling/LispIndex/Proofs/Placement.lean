import LispIndex.Document
import LispIndex.Proofs.Lexing
import Mathlib.Data.List.Forall2
import Mathlib.Data.List.Induction

/-!
Where the atoms of a document stand in its text. Every atom has an extent, two offsets of the text;
extents follow each other with nothing but blanks around them, and the range of an atom is the one
that its extent has.
-/

namespace LispIndex

namespace Position

/-- The place of an offset: the line feeds before it and the characters since the last of them. -/
def ofOffset (text : List Char) (offset : Nat) : Position :=
  ⟨(text.take offset).count '\n', ((text.take offset).reverse.takeWhile (· != '\n')).length⟩

theorem advance_origin (text : List Char) : origin.advance text =
    ⟨text.count '\n', (text.reverse.takeWhile (· != '\n')).length⟩ := by
  induction text using List.reverseRecOn with
  | nil => rfl
  | append_singleton before c ih =>
    rw [advance_append, ih]
    by_cases feed : c = '\n' <;> simp [advance, step, feed]

theorem ofOffset_eq (text : List Char) (offset : Nat) :
    ofOffset text offset = origin.advance (text.take offset) :=
  (advance_origin _).symm

theorem ofOffset_append (before rest : List Char) :
    ofOffset (before ++ rest) before.length = origin.advance before := by
  rw [ofOffset_eq, List.take_left]

private theorem advance_le (p : Position) (text : List Char) :
    (p.advance text).line + (p.advance text).character ≤ p.line + p.character + text.length := by
  induction text generalizing p with
  | nil => exact Nat.le_refl _
  | cons c rest ih =>
    have next := ih (p.step c)
    have single : (p.step c).line + (p.step c).character ≤ p.line + p.character + 1 := by
      unfold step
      split_ifs <;> dsimp only <;> omega
    change ((p.step c).advance rest).line + ((p.step c).advance rest).character ≤ _
    rw [List.length_cons]
    omega

theorem advance_later (p : Position) (text : List Char) :
    p.line < (p.advance text).line ∨
      (p.advance text).line = p.line ∧ (p.advance text).character = p.character + text.length := by
  induction text generalizing p with
  | nil => exact .inr ⟨rfl, rfl⟩
  | cons c rest ih =>
    have next := ih (p.step c)
    change p.line < ((p.step c).advance rest).line ∨ ((p.step c).advance rest).line = p.line ∧
      ((p.step c).advance rest).character = p.character + (rest.length + 1)
    by_cases feed : c = '\n'
    · have here : p.step c = ⟨p.line + 1, 0⟩ := if_pos feed
      rw [here] at next ⊢
      dsimp only at next
      omega
    · have here : p.step c = ⟨p.line, p.character + 1⟩ := if_neg feed
      rw [here] at next ⊢
      dsimp only at next
      omega

theorem advance_eq_self_iff (p : Position) (text : List Char) : p.advance text = p ↔ text = [] := by
  constructor
  · intro same
    have later := advance_later p text
    rw [same] at later
    exact List.length_eq_zero_iff.mp (by omega)
  · rintro rfl
    rfl

/-- Lines and characters never count more than the text has, so that counters of 32 bits hold them
for every text of fewer than `2 ^ 32` characters. -/
theorem ofOffset_le (text : List Char) (offset : Nat) :
    (ofOffset text offset).line + (ofOffset text offset).character ≤ text.length := by
  have bound := advance_le origin (text.take offset)
  have shorter := (List.take_sublist offset text).length_le
  rw [ofOffset_eq]
  change _ ≤ 0 + 0 + _ at bound
  omega

end Position

structure Extent where
  kind : TokenKind
  start : Nat
  stop : Nat
deriving DecidableEq

def Blanks (text : List Char) (first stop : Nat) : Prop :=
  ∀ offset c, first ≤ offset → offset < stop → text[offset]? = some c → Text.isBlank c = true

/-- Extents in a text from an offset on, none of them empty, each behind the one before it, with
nothing but blanks between them and behind the last. -/
def Laid (text : List Char) (offset : Nat) : List Extent → Prop
  | [] => Blanks text offset text.length
  | e :: rest => offset ≤ e.start ∧ Blanks text offset e.start ∧ e.start < e.stop ∧
      e.stop ≤ text.length ∧ Laid text e.stop rest

def extents (offset : Nat) : List Lexeme → List Extent
  | [] => []
  | ⟨gap, token⟩ :: rest =>
    ⟨token.kind, offset + gap.length, offset + gap.length + token.text.length⟩ ::
      extents (offset + gap.length + token.text.length) rest

def atomsFrom (index : Nat) (start : Position) : List Lexeme → List Atom
  | [] => []
  | ⟨gap, token⟩ :: rest =>
    { symbol := String.ofList token.text, start := start.advance gap, index } ::
      atomsFrom (index + 1) ((start.advance gap).advance token.text) rest

theorem placeAtoms_toList (placed : Array Atom) (start : Position) (lexemes : List Lexeme) :
    (placeAtoms placed start lexemes).toList =
      placed.toList ++ atomsFrom placed.size start lexemes := by
  induction lexemes generalizing placed start with
  | nil => simp [placeAtoms, atomsFrom]
  | cons lexeme rest ih =>
    rw [placeAtoms, ih, atomsFrom]
    simp

theorem atomsFrom_length (index : Nat) (start : Position) (lexemes : List Lexeme) :
    (atomsFrom index start lexemes).length = lexemes.length := by
  induction lexemes generalizing index start with
  | nil => rfl
  | cons lexeme rest ih => rw [atomsFrom, List.length_cons, ih, List.length_cons]

theorem atomsFrom_index (index : Nat) (start : Position) (lexemes : List Lexeme) (i : Nat)
    (a : Atom) (found : (atomsFrom index start lexemes)[i]? = some a) : a.index = index + i := by
  induction lexemes generalizing index start i with
  | nil => simp [atomsFrom] at found
  | cons lexeme rest ih =>
    cases i with
    | zero =>
      obtain rfl := Option.some.inj found
      rfl
    | succ i =>
      rw [ih (index + 1) _ i found]
      omega

theorem atomsFrom_next (index : Nat) (start : Position) (lexemes : List Lexeme) (i : Nat)
    (a b : Atom) (first : (atomsFrom index start lexemes)[i]? = some a)
    (second : (atomsFrom index start lexemes)[i + 1]? = some b) :
    ∃ lexeme, lexemes[i + 1]? = some lexeme ∧ b.start = a.stop.advance lexeme.gap := by
  induction lexemes generalizing index start i with
  | nil => simp [atomsFrom] at first
  | cons lexeme rest ih =>
    cases i with
    | zero =>
      cases rest with
      | nil => simp [atomsFrom] at second
      | cons next more =>
        obtain rfl := Option.some.inj first
        obtain rfl := Option.some.inj second
        exact ⟨next, rfl, by rw [Atom.stop, String.toList_ofList]⟩
    | succ i => exact ih (index + 1) _ i first second

theorem build_atoms (native : String → Bool) (text : String) :
    (Document.build native text).atoms.toList =
      atomsFrom 0 .origin (Lexing.ofText text.toList).lexemes := by
  change (placeAtoms #[] .origin _).toList = _
  rw [placeAtoms_toList]
  rfl

/-- The atom has the characters of an extent as its symbol and their place as its range. -/
def Placed (text : List Char) (a : Atom) (e : Extent) : Prop :=
  a.symbol = String.ofList (text.extract e.start e.stop) ∧
    a.range = ⟨.ofOffset text e.start, .ofOffset text e.stop⟩

private theorem placed_token (front rest : List Char) (token : Token) (index : Nat) :
    Placed (front ++ token.text ++ rest)
      { symbol := String.ofList token.text, start := Position.origin.advance front, index }
      ⟨token.kind, front.length, front.length + token.text.length⟩ := by
  constructor
  · simp
  · have start := Position.ofOffset_append front (token.text ++ rest)
    have stop := Position.ofOffset_append (front ++ token.text) rest
    rw [List.length_append, Position.advance_append] at stop
    rw [← List.append_assoc] at start
    simp only [Atom.range, Atom.stop, String.toList_ofList, start, stop]

private theorem blanks_gap (before gap rest : List Char)
    (blanks : ∀ b ∈ gap, Text.isBlank b = true) :
    Blanks (before ++ gap ++ rest) before.length (before.length + gap.length) := by
  intro offset c low high found
  rw [List.append_assoc, List.getElem?_append_right low,
    List.getElem?_append_left (by omega)] at found
  exact blanks c (List.mem_of_getElem? found)

namespace Lexes

variable {text tail : List Char} {lexemes : List Lexeme}

theorem token_text (before gap rest : List Char) (c : Char) :
    before ++ (gap ++ c :: rest) =
      before ++ gap ++ (Token.split c rest).1.text ++ (Token.split c rest).2 := by
  rw [List.append_assoc _ _ (Token.split c rest).2, Token.split_append, List.append_assoc]

theorem laid (lexes : Lexes text lexemes tail) (before : List Char) :
    Laid (before ++ text) before.length (extents before.length lexemes) := by
  -- Offsets count from the start of the text, so what was lexed before is carried along.
  induction lexes generalizing before with
  | blank tail blanks =>
    have gap := blanks_gap before tail [] blanks
    rwa [List.append_nil, ← List.length_append] at gap
  | token gap c rest lexemes tail blanks start more ih =>
    obtain ⟨others, whole⟩ := Token.split_text c rest
    have next := ih (before ++ gap ++ (Token.split c rest).1.text)
    rw [token_text]
    simp only [List.length_append] at next
    refine ⟨Nat.le_add_right _ _, ?_, ?_, ?_, next⟩
    · rw [List.append_assoc (before ++ gap)]
      exact blanks_gap before gap _ blanks
    · simp [whole]
    · simp only [List.length_append]
      omega

theorem placed (lexes : Lexes text lexemes tail) (before : List Char) (index : Nat) :
    List.Forall₂ (Placed (before ++ text)) (atomsFrom index (Position.origin.advance before) lexemes)
      (extents before.length lexemes) := by
  induction lexes generalizing before index with
  | blank => exact .nil
  | token gap c rest lexemes tail blanks start more ih =>
    have here := placed_token (before ++ gap) (Token.split c rest).2 (Token.split c rest).1 index
    have next := ih (before ++ gap ++ (Token.split c rest).1.text) (index + 1)
    rw [token_text]
    simp only [List.length_append, Position.advance_append] at here next
    exact .cons here next

end Lexes

private theorem Placed.stop_le {text : List Char} {a : Atom} {e : Extent}
    (placed : Placed text a e) :
    a.stop.line + a.stop.character ≤ text.length := by
  have same : a.stop = .ofOffset text e.stop := congrArg Range.stop placed.2
  rw [same]
  exact Position.ofOffset_le text e.stop

/-- Lexing loses nothing and places every atom exactly: the atoms are, in their order, the characters
of extents outside of which the text is blank, each at the place its characters have. -/
theorem build_placed (native : String → Bool) (text : String) :
    ∃ cut, Laid text.toList 0 cut ∧
      List.Forall₂ (Placed text.toList) (Document.build native text).atoms.toList cut ∧
      ∀ a ∈ (Document.build native text).atoms.toList,
        a.stop.line + a.stop.character ≤ text.toList.length := by
  have lexes := Lexing.ofText_lexes text.toList
  have placed := lexes.placed [] 0
  have bounded := placed.imp fun a e (here : Placed _ a e) => And.intro here.stop_le here
  refine ⟨extents 0 (Lexing.ofText text.toList).lexemes, lexes.laid [], ?_⟩
  rw [build_atoms]
  exact ⟨placed, ((List.forall₂_and_left _ _).mp bounded).1⟩

end LispIndex
