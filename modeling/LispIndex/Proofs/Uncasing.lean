import LispIndex.Proofs.LetterCase
import LispIndex.Proofs.Rereading
import LispIndex.Proofs.SymbolTable

/-!
Texts with their ASCII letters made small. Nothing in the reading of a text depends on the case of
a letter: the document of such a text has the same form, places and names, and its atoms are those
of the text itself with their letters made small.
-/

namespace LispIndex

namespace Text

theorem toLower_cases (c : Char) : c.toLower = c ∨ ∃ n ∈ List.range' 65 26, c = Char.ofNat n := by
  by_cases capital : 65 ≤ c.toNat ∧ c.toNat ≤ 90
  · refine .inr ⟨c.toNat, ?_, (Char.ofNat_toNat c).symm⟩
    rw [List.mem_range'_1]
    omega
  · apply Or.inl
    rw [← Char.toNat_inj, toNat_toLower, if_neg capital]

/-- A function with one value for both cases of every letter does not see the case. -/
theorem apply_toLower {α : Type} [DecidableEq α] {f : Char → α}
    (letters : (List.range' 65 26).all (fun n =>
      decide (f (Char.ofNat n).toLower = f (Char.ofNat n))) = true) (c : Char) :
    f c.toLower = f c := by
  rcases toLower_cases c with own | ⟨n, capital, rfl⟩
  · rw [own]
  · exact of_decide_eq_true (List.all_eq_true.mp letters n capital)

theorem isBlank_toLower (c : Char) : isBlank c.toLower = isBlank c :=
  apply_toLower (by decide +kernel) c

private theorem isCased_toLower (c : Char) :
    inRanges casedRanges c.toLower = inRanges casedRanges c :=
  apply_toLower (by decide +kernel) c

/-- No letter is among the characters that are passed over. -/
theorem letters_apart : caseIgnorableRanges.all (fun (first, last) =>
    decide (last < 65) || decide (90 < first) && decide (last < 97) || decide (122 < first)) =
      true := by
  decide +kernel

private theorem isCaseIgnorable_toLower (c : Char) :
    inRanges caseIgnorableRanges c.toLower = inRanges caseIgnorableRanges c := by
  have number := toNat_toLower c
  rw [Bool.eq_iff_iff, inRanges, inRanges, List.any_eq_true, List.any_eq_true]
  apply exists_congr
  rintro ⟨first, last⟩
  apply and_congr_right
  intro member
  have apart := List.all_eq_true.mp letters_apart _ member
  simp only [Bool.or_eq_true, Bool.and_eq_true, decide_eq_true_eq] at apart ⊢
  split_ifs at number <;> omega

private theorem smallLetter_toLower (c : Char) : smallLetter c.toLower = smallLetter c :=
  apply_toLower (by decide +kernel) c

private theorem nextIsCased_map (text : List Char) :
    nextIsCased (text.map Char.toLower) = nextIsCased text := by
  have ignored : inRanges caseIgnorableRanges ∘ Char.toLower = inRanges caseIgnorableRanges :=
    funext isCaseIgnorable_toLower
  rw [nextIsCased, nextIsCased, List.dropWhile_map, ignored]
  cases text.dropWhile (inRanges caseIgnorableRanges) with
  | nil => rfl
  | cons c rest => exact isCased_toLower c

private theorem smallLetters_map (before text : List Char) :
    smallLetters (before.map Char.toLower) (text.map Char.toLower) = smallLetters before text := by
  induction text generalizing before with
  | nil => rfl
  | cons c after ih =>
    have here : lowerAt (before.map Char.toLower) c.toLower (after.map Char.toLower) =
        lowerAt before c after := by
      -- The two characters that are lowercased in a way of their own are no ASCII letters.
      simp (disch := decide) only [lowerAt, nextIsCased_map, smallLetter_toLower, toLower_eq_iff]
    rw [List.map_cons, smallLetters, smallLetters, here, ← List.map_cons, ih]

def uncased (text : String) : String :=
  String.ofList (text.toList.map Char.toLower)

@[simp] theorem toList_uncased (text : String) :
    (uncased text).toList = text.toList.map Char.toLower :=
  String.toList_ofList

@[simp] theorem uncased_uncased (text : String) : uncased (uncased text) = uncased text := by
  rw [← String.toList_inj, toList_uncased, toList_uncased, map_toLower_map]

theorem sameName_iff {left right : String} :
    sameName left right = true ↔ uncased left = uncased right := by
  rw [sameName, beq_iff_eq, ← String.toList_inj, toList_uncased, toList_uncased]

/-- Names that differ in the case of ASCII letters have the same small letters. -/
@[simp] theorem lower_uncased (text : String) : lower (uncased text) = lower text := by
  rw [← String.toList_inj, toList_lower, toList_lower, toList_uncased]
  exact smallLetters_map [] text.toList

@[simp] theorem sameName_uncased (text name : String) :
    sameName (uncased text) name = sameName text name := by
  rw [sameName, toList_uncased, map_toLower_map, sameName]

/-- Characters without case are spelled in one way only. -/
theorem map_toLower_eq_iff {text word : List Char} (caseless : word.all (!·.isAlpha) = true) :
    text.map Char.toLower = word ↔ text = word := by
  induction text generalizing word with
  | nil => rfl
  | cons c rest ih =>
    cases word with
    | nil => simp
    | cons d more =>
      rw [List.all_cons, Bool.and_eq_true, Bool.not_eq_true'] at caseless
      rw [List.map_cons, List.cons.injEq, List.cons.injEq, toLower_eq_iff caseless.1, ih caseless.2]

theorem uncased_beq (text : String) {word : String}
    (caseless : word.toList.all (!·.isAlpha) = true) : (uncased text == word) = (text == word) := by
  rw [Bool.eq_iff_iff, beq_iff_eq, beq_iff_eq, ← String.toList_inj, toList_uncased,
    map_toLower_eq_iff caseless, String.toList_inj]

private theorem isPrefixOf_map {word : List Char} (caseless : word.all (!·.isAlpha) = true)
    (text : List Char) : word.isPrefixOf (text.map Char.toLower) = word.isPrefixOf text := by
  induction word generalizing text with
  | nil => simp
  | cons d more ih =>
    cases text with
    | nil => rfl
    | cons c rest =>
      rw [List.all_cons, Bool.and_eq_true, Bool.not_eq_true'] at caseless
      rw [List.map_cons, List.isPrefixOf_cons_cons, List.isPrefixOf_cons_cons, ih caseless.2,
        Bool.beq_comm, toLower_beq caseless.1, Bool.beq_comm]

end Text

@[simp] theorem isPrimitiveText_uncased (text : String) :
    isPrimitiveText (Text.uncased text) = isPrimitiveText text := by
  have glyph : (Text.uncased text).toList.head?.any isGlyph = text.toList.head?.any isGlyph := by
    rw [Text.toList_uncased, List.head?_map, Option.any_map]
    exact congrArg (Option.any · _) (funext Text.isGlyph_toLower)
  rw [isPrimitiveText_eq, isPrimitiveText_eq, glyph, isLiteralText_map (Text.toList_uncased text)]

private theorem Position.advance_map (p : Position) (text : List Char) :
    p.advance (text.map Char.toLower) = p.advance text := by
  rw [advance, List.foldl_map]
  congr 1
  funext p c
  rw [step, step]
  simp (disch := decide) only [Text.toLower_eq_iff]

namespace Token

def uncased (t : Token) : Token :=
  ⟨t.kind, t.text.map Char.toLower⟩

private theorem splitString_map (seen text : List Char) :
    splitString (seen.map Char.toLower) (text.map Char.toLower) =
      ((splitString seen text).1.map Char.toLower, (splitString seen text).2.map Char.toLower) := by
  fun_induction splitString seen text with
  | case1 seen => simp [splitString]
  | case2 seen rest => simp [splitString]
  | case3 seen c rest ih => exact ih
  | case4 seen c rest notQuote notEscape ih =>
    rw [List.map_cons, splitString.eq_4 _ c.toLower, ← List.map_cons, ih]
    · rwa [imp_false, Text.toLower_eq_iff rfl]
    · intro d more backslash front
      obtain ⟨e, others, rfl, -, -⟩ := List.map_eq_cons_iff.mp front
      exact notEscape e others ((Text.toLower_eq_iff rfl).mp backslash) rfl

private theorem splitBlock_map (seen text : List Char) :
    splitBlock (seen.map Char.toLower) (text.map Char.toLower) =
      ((splitBlock seen text).1.map Char.toLower, (splitBlock seen text).2.map Char.toLower) := by
  fun_induction splitBlock seen text with
  | case1 seen => simp [splitBlock]
  | case2 seen rest => simp [splitBlock]
  | case3 seen c rest notClosed ih =>
    rw [List.map_cons, splitBlock.eq_3 _ c.toLower, ← List.map_cons, ih]
    intro more bar front
    obtain ⟨e, others, rfl, closed, -⟩ := List.map_eq_cons_iff.mp front
    obtain rfl := (Text.toLower_eq_iff rfl).mp closed
    exact notClosed others ((Text.toLower_eq_iff rfl).mp bar) rfl

theorem isDelimiter_toLower (c : Char) : isDelimiter c.toLower = isDelimiter c := by
  simp (disch := decide) only [isDelimiter, Text.isBlank_toLower, Text.toLower_beq]

private theorem isLineBreak_toLower (c : Char) : isLineBreak c.toLower = isLineBreak c := by
  simp (disch := decide) only [isLineBreak, Text.toLower_beq]

private theorem splitComment_map (rest : List Char) :
    splitComment (rest.map Char.toLower) =
      ((splitComment rest).1.uncased, (splitComment rest).2.map Char.toLower) := by
  by_cases bar : rest.head? = some '|'
  · obtain ⟨more, rfl⟩ := List.head?_eq_some_iff.mp bar
    have body := splitBlock_map [] ('|' :: more)
    rw [List.map_nil, List.map_cons] at body
    rw [List.map_cons]
    change splitComment ('|' :: more.map Char.toLower) = _
    rw [splitComment, splitComment]
    exact congrArg (fun parts : List Char × List Char =>
      (Token.mk .blockComment (';' :: parts.1), parts.2)) body
  · have still : (rest.map Char.toLower).head? ≠ some '|' := by
      rw [List.head?_map, ne_eq, Option.map_eq_some_iff]
      rintro ⟨c, front, same⟩
      exact bar (front.trans (congrArg some ((Text.toLower_eq_iff rfl).mp same)))
    rw [splitComment_line _ still, splitComment_line _ bar]
    simp [uncased, List.takeWhile_map, List.dropWhile_map, Function.comp_def, isLineBreak_toLower]

private theorem split_map (c : Char) (rest : List Char) :
    split c.toLower (rest.map Char.toLower) =
      ((split c rest).1.uncased, (split c rest).2.map Char.toLower) := by
  have body := splitString_map [] rest
  rw [List.map_nil] at body
  simp (disch := decide) only [split, Text.toLower_eq_iff, body, splitComment_map,
    List.takeWhile_map, List.dropWhile_map, Function.comp_def, isDelimiter_toLower]
  split_ifs <;> rfl

end Token

def Lexeme.uncased (l : Lexeme) : Lexeme :=
  ⟨l.gap.map Char.toLower, l.token.uncased⟩

private theorem Lexes.uncased {text tail : List Char} {lexemes : List Lexeme}
    (lexes : Lexes text lexemes tail) :
    Lexes (text.map Char.toLower) (lexemes.map Lexeme.uncased) (tail.map Char.toLower) := by
  have blank (gap : List Char) (blanks : ∀ b ∈ gap, Text.isBlank b = true) :
      ∀ b ∈ gap.map Char.toLower, Text.isBlank b = true := by
    rw [List.forall_mem_map]
    intro b member
    rw [Text.isBlank_toLower, blanks b member]
  induction lexes with
  | blank tail blanks => exact .blank _ (blank tail blanks)
  | token gap c rest lexemes tail blanks start more ih =>
    have split := Token.split_map c rest
    have next := Lexes.token (gap.map Char.toLower) c.toLower (rest.map Char.toLower)
      (lexemes.map Lexeme.uncased) (tail.map Char.toLower) (blank gap blanks)
      ((Text.isBlank_toLower c).trans start)
    rw [split] at next
    rw [List.map_append, List.map_cons]
    exact next ih

def Atom.uncased (a : Atom) : Atom :=
  { a with symbol := Text.uncased a.symbol }

private theorem atomsFrom_uncased (index : Nat) (start : Position) (lexemes : List Lexeme) :
    atomsFrom index start (lexemes.map Lexeme.uncased) =
      (atomsFrom index start lexemes).map Atom.uncased := by
  induction lexemes generalizing index start with
  | nil => rfl
  | cons lexeme rest ih =>
    obtain ⟨gap, token⟩ := lexeme
    simp only [List.map_cons, atomsFrom, Lexeme.uncased, Token.uncased, Position.advance_map, ih,
      Atom.uncased, Text.uncased, String.toList_ofList]

namespace Atom

variable (a : Atom)

@[simp] theorem isComment_uncased : a.uncased.isComment = a.isComment := by
  rw [isComment, uncased, Text.toList_uncased, Text.isPrefixOf_map rfl, isComment]

@[simp] theorem isLeftParen_uncased : a.uncased.isLeftParen = a.isLeftParen :=
  Text.uncased_beq a.symbol rfl

@[simp] theorem isRightParen_uncased : a.uncased.isRightParen = a.isRightParen :=
  Text.uncased_beq a.symbol rfl

@[simp] theorem isQuote_uncased : a.uncased.isQuote = a.isQuote :=
  Text.uncased_beq a.symbol rfl

@[simp] theorem isPrimitive_uncased : a.uncased.isPrimitive = a.isPrimitive :=
  isPrimitiveText_uncased a.symbol

@[simp] theorem name_uncased : a.uncased.name = a.name :=
  Text.lower_uncased a.symbol

@[simp] theorem isTracked_uncased (native : String → Bool) :
    a.uncased.isTracked native = a.isTracked native := by
  rw [isTracked, isPrimitive_uncased, name_uncased, isTracked]

@[simp] theorem stop_uncased : a.uncased.stop = a.stop := by
  rw [stop, uncased, Text.toList_uncased, Position.advance_map, stop]

@[simp] theorem range_uncased : a.uncased.range = a.range := by
  rw [range, stop_uncased, uncased, range]

end Atom

private theorem SymbolTable.ofAtoms_uncased (native : String → Bool) (atoms : Array Atom) :
    ofAtoms native (atoms.map Atom.uncased) = ofAtoms native atoms := by
  rw [ofAtoms, ofAtoms, Array.foldr_map]
  simp only [Atom.isTracked_uncased, Atom.name_uncased]
  rfl

private theorem LineEnding.detect_map (text : List Char) :
    detect (text.map Char.toLower) = detect text := by
  fun_induction detect text with
  | case1 rest => rfl
  | case2 c rest notCrLf ih =>
    rw [List.map_cons, detect.eq_2 c.toLower, ih]
    intro more carriage front
    obtain ⟨d, others, rfl, feed, -⟩ := List.map_eq_cons_iff.mp front
    obtain rfl := (Text.toLower_eq_iff rfl).mp feed
    exact notCrLf others ((Text.toLower_eq_iff rfl).mp carriage) rfl
  | case3 => rfl

attribute [ext] Document

namespace Document

def uncased (d : Document) : Document :=
  { d with atoms := d.atoms.map Atom.uncased }

theorem build_uncased (native : String → Bool) (text : String) :
    build native (Text.uncased text) = (build native text).uncased := by
  have lexemes : (Lexing.ofText (Text.uncased text).toList).lexemes =
      (Lexing.ofText text.toList).lexemes.map Lexeme.uncased := by
    rw [Text.toList_uncased]
    exact (Lexing.ofText_lexes _).unique (Lexing.ofText_lexes text.toList).uncased
  have atoms : (build native (Text.uncased text)).atoms =
      (build native text).atoms.map Atom.uncased := by
    rw [← Array.toList_inj, Array.toList_map, build_atoms, build_atoms, lexemes, atomsFrom_uncased]
  have root : (build native (Text.uncased text)).root = (build native text).root := by
    change Form.ofLexemes _ = Form.ofLexemes _
    rw [lexemes, Form.ofLexemes_map (f := Lexeme.uncased) (fun _ => rfl)]
    exact fun lexeme => List.map_eq_nil_iff
  have symbols : (build native (Text.uncased text)).symbols = (build native text).symbols := by
    change SymbolTable.ofAtoms native (build native (Text.uncased text)).atoms = _
    rw [atoms, SymbolTable.ofAtoms_uncased]
    rfl
  have ending : (build native (Text.uncased text)).lineEnding = (build native text).lineEnding := by
    change LineEnding.detect _ = LineEnding.detect _
    rw [Text.toList_uncased, LineEnding.detect_map]
  exact Document.ext atoms root symbols ending

end Document

end LispIndex
