import LispIndex.DocComment.ParamName
import LispIndex.Proofs.LetterFolding
import LispIndex.Proofs.Rereading
import LispIndex.Proofs.SourceOrder
import LispIndex.Proofs.Uncasing

/-!
The place of a parameter name in a block comment. The search picks a line by its letters and then
reads the line again as tokens; both agree on where the name stands, and its place on the line is
its place in the document.
-/

namespace LispIndex

namespace Text

def ended (lines : List (List Char)) : List Char :=
  lines.flatMap (· ++ ['\n'])

theorem linesFrom_spec (found : List (List Char)) (line text : List Char) (flat : '\n' ∉ line) :
    ∃ first rest, linesFrom found line text = found.reverse ++ first :: rest ∧
      line.reverse ++ text = first ++ rest.flatMap ('\n' :: ·) ∧
      ∀ l ∈ first :: rest, '\n' ∉ l := by
  induction text generalizing found line with
  | nil => exact ⟨line.reverse, [], by simp [linesFrom], by simp, by simpa using flat⟩
  | cons c text ih =>
    rw [linesFrom]
    split_ifs with feed
    · obtain ⟨first, rest, listed, joined, flats⟩ := ih (line.reverse :: found) [] (by simp)
      refine ⟨line.reverse, first :: rest, by simp [listed], ?_, ?_⟩
      · rw [feed, List.flatMap_cons, List.cons_append, ← joined]
        rfl
      · exact List.forall_mem_cons.mpr ⟨by simpa using flat, flats⟩
    · obtain ⟨first, rest, listed, joined, flats⟩ :=
        ih found (c :: line) (by simpa using ⟨Ne.symm feed, flat⟩)
      exact ⟨first, rest, listed, by rw [← joined]; simp, flats⟩

theorem lines_spec (text : List Char) : ∃ first rest, lines text = first :: rest ∧
    text = first ++ rest.flatMap ('\n' :: ·) ∧ ∀ l ∈ first :: rest, '\n' ∉ l :=
  linesFrom_spec [] [] text (by simp)

theorem ended_cons (first : List Char) (rest : List (List Char)) :
    ended (first :: rest) = first ++ '\n' :: ended rest := by
  simp [ended]

private theorem fed_ended (first : List Char) (rest : List (List Char)) :
    first ++ rest.flatMap ('\n' :: ·) ++ ['\n'] = ended (first :: rest) := by
  induction rest generalizing first with
  | nil => simp [ended]
  | cons line rest ih =>
    rw [ended_cons, ← ih line]
    simp

/-- What stands before and behind a line of a text. -/
theorem lines_split {text line : List Char} {front back : List (List Char)}
    (split : lines text = front ++ line :: back) :
    text = ended front ++ line ++ back.flatMap ('\n' :: ·) ∧
      (∀ l ∈ front, '\n' ∉ l) ∧ '\n' ∉ line := by
  obtain ⟨first, rest, listed, joined, flats⟩ := lines_spec text
  rw [← listed, split, List.forall_mem_append, List.forall_mem_cons] at flats
  refine ⟨?_, flats.1, flats.2.1⟩
  rw [split] at listed
  cases front with
  | nil =>
    obtain ⟨rfl, rfl⟩ := List.cons.inj listed
    exact joined
  | cons head front =>
    rw [List.cons_append] at listed
    obtain ⟨rfl, rfl⟩ := List.cons.inj listed
    rw [joined, ← fed_ended, List.flatMap_append, List.flatMap_cons]
    simp

end Text

namespace Position

private theorem advance_flat (p : Position) {text : List Char} (flat : '\n' ∉ text) :
    p.advance text = ⟨p.line, p.character + text.length⟩ := by
  rw [advance_eq, if_neg flat, List.count_eq_zero_of_not_mem flat]
  rfl

private theorem ofOffset_of_prefix {front text : List Char} (ahead : front <+: text) :
    ofOffset text front.length = origin.advance front := by
  obtain ⟨rest, rfl⟩ := ahead
  exact ofOffset_append front rest

/-- Behind whole lines a text stands at the start of a line. -/
theorem advance_ended (p : Position) {lines : List (List Char)} (filled : lines ≠ [])
    (flats : ∀ l ∈ lines, '\n' ∉ l) :
    p.advance (Text.ended lines) = ⟨p.line + lines.length, 0⟩ := by
  induction lines generalizing p with
  | nil => exact absurd rfl filled
  | cons line lines ih =>
    obtain ⟨flat, others⟩ := List.forall_mem_cons.mp flats
    have one : p.advance (line ++ ['\n']) = ⟨p.line + 1, 0⟩ := by
      rw [advance_append, advance_flat p flat]
      rfl
    rw [Text.ended_cons, ← List.singleton_append, ← List.append_assoc, advance_append, one]
    cases lines with
    | nil => rfl
    | cons next lines =>
      rw [ih _ (by simp) others, List.length_cons, List.length_cons, Nat.add_right_comm]
      rfl

end Position

section Words

variable {gap word rest tail : List Char} {lexemes : List Lexeme}

private theorem Token.split_word {c : Char} (plain : ∀ d ∈ c :: word, isDelimiter d = false)
    (ends : ∀ d, rest.head? = some d → isDelimiter d = true) :
    split c (word ++ rest) = (⟨.bare, c :: word⟩, rest) := by
  obtain ⟨first, others⟩ := List.forall_mem_cons.mp plain
  have whole : word.takeWhile (!isDelimiter ·) = word :=
    List.takeWhile_eq_self_iff.mpr fun d member => by simp [others d member]
  have cut := takeWhile_swap isDelimiter word rest ends
  rw [whole] at cut
  simp only [isDelimiter, Bool.or_eq_false_iff, beq_eq_false_iff_ne] at first
  obtain ⟨⟨⟨⟨⟨-, left⟩, right⟩, quote⟩, string⟩, comment⟩ := first
  rw [split, if_neg left, if_neg right, if_neg quote, if_neg string, if_neg comment, cut.1, cut.2]

/-- A word between delimiters is lexed as one bare token. -/
theorem Lexes.bare (lexes : Lexes (gap ++ word ++ rest) lexemes tail)
    (blanks : ∀ b ∈ gap, Text.isBlank b = true) (filled : word ≠ [])
    (plain : ∀ c ∈ word, Token.isDelimiter c = false)
    (ends : ∀ c, rest.head? = some c → Token.isDelimiter c = true) :
    ∃ more, lexemes = ⟨gap, ⟨.bare, word⟩⟩ :: more ∧ Lexes rest more tail := by
  obtain ⟨c, word, rfl⟩ := List.exists_cons_of_ne_nil filled
  have solid : Text.isBlank c = false := by
    refine Bool.eq_false_iff.mpr fun blank => ?_
    exact absurd (Grammar.delimiter_of_blank blank) (by simp [plain c])
  generalize whole : gap ++ c :: word ++ rest = text at lexes
  rw [List.append_assoc, List.cons_append] at whole
  cases lexes with
  | blank _ allBlank =>
    refine absurd (allBlank c ?_) (by simp [solid])
    rw [← whole]
    simp
  | token other d behind lexemes tail others start more =>
    obtain ⟨rfl, rfl, rfl⟩ := front_unique blanks solid others start whole
    rw [Token.split_word plain ends] at more ⊢
    exact ⟨lexemes, rfl, more⟩

end Words

def Atom.Occurs (a : Atom) (text before after : List Char) : Prop :=
  text = before ++ a.symbol.toList ++ after ∧ a.start = Position.origin.advance before

theorem Placed.occurs {text : List Char} {a : Atom} {e : Extent} (placed : Placed text a e) :
    ∃ before after, a.Occurs text before after := by
  refine ⟨text.take e.start, (text.drop e.start).drop (e.stop - e.start), ?_, ?_⟩
  · rw [placed.1, String.toList_ofList, List.extract_eq_take_drop, List.append_assoc,
      List.take_append_drop, List.take_append_drop]
  · rw [← Position.ofOffset_eq]
    exact congrArg Range.start placed.2

theorem build_occurs (native : String → Bool) (text : String) :
    ∀ a ∈ (Document.build native text).atoms.toList,
      ∃ before after, a.Occurs text.toList before after := by
  have placed := (Lexing.ofText_lexes text.toList).placed [] 0
  have occur := placed.imp fun a e (here : Placed _ a e) => And.intro here.occurs here
  rw [build_atoms]
  exact ((List.forall₂_and_left _ _).mp occur).1

private theorem parse_occurs (native : String → Bool) (text : String) :
    ∀ a ∈ (Document.parse native text).atoms.toList,
      ∃ before after, a.Occurs text.toList before after := by
  intro a member
  obtain ⟨i, found⟩ := List.mem_iff_getElem?.mp member
  rw [Array.getElem?_toList] at found
  obtain ⟨b, here, symbol, start, -⟩ := (Document.marks_atoms _ _).2 i a found
  obtain ⟨before, after, occurs⟩ := build_occurs native text b
    (List.mem_iff_getElem?.mpr ⟨i, by rw [Array.getElem?_toList]; exact here⟩)
  exact ⟨before, after, by rw [Atom.Occurs, symbol, start]; exact occurs⟩

namespace DocComment

def PlainWord (word : List Char) : Prop :=
  ∀ c ∈ word, Token.isDelimiter c = false ∧ c ≠ '|'

/-- A name that can be searched: an ASCII word that is no tag of a parameter. -/
structure PlainName (name : List Char) : Prop where
  filled : name ≠ []
  ascii : ∀ c ∈ name, c.toNat < 0x80
  word : PlainWord name
  other : name.map Char.toLower ≠ paramTag

def Gapped (text : List Char) : Prop :=
  ∀ c, text.head? = some c → Text.isBlank c = true

/-- A line that is an entry for a parameter: blanks and bars, the tag in any letter case, blanks,
the word, and a blank or the end of the line behind it. -/
structure EntryLine (line lead tag gap word rest : List Char) : Prop where
  whole : line = lead ++ tag ++ gap ++ word ++ rest
  lead : ∀ c ∈ lead, Text.isBlank c = true ∨ c = '|'
  tag : tag.map Char.toLower = paramTag
  gap : gap ≠ [] ∧ ∀ c ∈ gap, Text.isBlank c = true
  ends : Gapped rest

def SpellsParam (name line : List Char) : Prop :=
  ∃ lead tag gap word rest, EntryLine line lead tag gap word rest ∧
    Text.lower (String.ofList word) = Text.lower (String.ofList name)

section Matching

variable {name word text line : List Char}

theorem startsWithWord_iff : startsWithWord word text = true ↔
    ∃ part c rest, text = part ++ c :: rest ∧
      part.map Text.foldLetter = word.map Text.foldLetter ∧ Text.isBlank c = true := by
  rw [startsWithWord, Bool.and_eq_true, beq_iff_eq, Option.any_eq_true]
  constructor
  · rintro ⟨same, c, first, blank⟩
    obtain ⟨rest, behind⟩ := List.head?_eq_some_iff.mp first
    exact ⟨text.take word.length, c, rest, by rw [← behind, List.take_append_drop], same, blank⟩
  · rintro ⟨part, c, rest, rfl, same, blank⟩
    have size : part.length = word.length := by simpa using congrArg List.length same
    rw [← size, List.take_left, List.drop_left]
    exact ⟨same, c, rfl, blank⟩

theorem followsBlanks_iff {needed : Bool} : followsBlanks word needed text = true ↔
    ∃ gap rest, text = gap ++ rest ∧ (∀ b ∈ gap, Text.isBlank b = true) ∧
      (needed = true → gap ≠ []) ∧ startsWithWord word rest = true := by
  induction text generalizing needed with
  | nil =>
    rw [followsBlanks, Bool.and_eq_true, Bool.not_eq_true']
    constructor
    · rintro ⟨rfl, starts⟩
      exact ⟨[], [], rfl, nofun, nofun, starts⟩
    · rintro ⟨gap, rest, whole, -, filled, starts⟩
      obtain ⟨rfl, rfl⟩ := List.nil_eq_append_iff.mp whole
      exact ⟨Bool.eq_false_iff.mpr fun needs => filled needs rfl, starts⟩
  | cons c text ih =>
    rw [followsBlanks, Bool.or_eq_true, Bool.and_eq_true, Bool.and_eq_true, Bool.not_eq_true', ih]
    constructor
    · rintro (⟨rfl, starts⟩ | ⟨blank, gap, rest, rfl, blanks, -, starts⟩)
      · exact ⟨[], c :: text, rfl, nofun, nofun, starts⟩
      · exact ⟨c :: gap, rest, rfl, List.forall_mem_cons.mpr ⟨blank, blanks⟩,
          fun _ => List.cons_ne_nil c gap, starts⟩
    · rintro ⟨gap, rest, whole, blanks, filled, starts⟩
      cases gap with
      | nil =>
        rw [List.nil_append] at whole
        exact .inl ⟨Bool.eq_false_iff.mpr fun needs => filled needs rfl, whole ▸ starts⟩
      | cons b gap =>
        obtain ⟨rfl, rfl⟩ := List.cons.inj whole
        obtain ⟨blank, others⟩ := List.forall_mem_cons.mp blanks
        exact .inr ⟨blank, gap, rest, rfl, others, nofun, starts⟩

/-- The line feed that is added to a line is its end or follows it. -/
theorem of_ended {front rest : List Char} {c : Char} (whole : line ++ ['\n'] = front ++ c :: rest)
    (blank : Text.isBlank c = true) :
    ∃ back, line = front ++ back ∧ Gapped back := by
  obtain ⟨back, last, split⟩ : ∃ back last, c :: rest = back ++ [last] :=
    (List.eq_nil_or_concat' (c :: rest)).resolve_left (List.cons_ne_nil c rest)
  rw [split, ← List.append_assoc] at whole
  refine ⟨back, (List.append_inj' whole rfl).1, ?_⟩
  intro d first
  obtain ⟨more, rfl⟩ := List.head?_eq_some_iff.mp first
  rwa [← (List.cons.inj split).1]

theorem tag_first {tag : List Char} (spelled : tag.map Char.toLower = paramTag) :
    ∃ more, tag = '@' :: more := by
  obtain ⟨c, more, rfl, small, -⟩ := List.map_eq_cons_iff.mp
    (show tag.map Char.toLower = '@' :: "param".toList from spelled)
  exact ⟨more, by rw [(Text.toLower_eq_iff (by decide)).mp small]⟩

theorem isParamLine_iff : isParamLine name line = true ↔
    ∃ lead tag gap word rest, EntryLine line lead tag gap word rest ∧
      word.map Text.foldLetter = name.map Text.foldLetter := by
  rw [isParamLine, Bool.and_eq_true, beq_iff_eq, followsBlanks_iff]
  constructor
  · have leads : ∀ c ∈ (line ++ ['\n']).takeWhile (fun c => Text.isBlank c || c == '|'),
        Text.isBlank c = true ∨ c = '|' := by
      intro c member
      simpa using List.mem_takeWhile_imp member
    have front := List.takeWhile_append_dropWhile
      (p := fun c => Text.isBlank c || c == '|') (l := line ++ ['\n'])
    generalize (line ++ ['\n']).takeWhile _ = lead at leads front
    generalize (line ++ ['\n']).dropWhile _ = entry at front ⊢
    rintro ⟨tagged, gap, behind, cut, blanks, filled, starts⟩
    obtain ⟨word, c, rest, rfl, same, blank⟩ := startsWithWord_iff.mp starts
    have split := List.take_append_drop paramTag.length entry
    generalize entry.take paramTag.length = tag at tagged split
    have joined : line ++ ['\n'] = lead ++ tag ++ gap ++ word ++ c :: rest := by
      rw [← front, ← split, cut]
      simp
    obtain ⟨back, whole, ends⟩ := of_ended joined blank
    exact ⟨lead, tag, gap, word, back, ⟨whole, leads, tagged, ⟨filled rfl, blanks⟩, ends⟩, same⟩
  · rintro ⟨lead, tag, gap, word, rest, ⟨rfl, leads, tagged, ⟨filled, blanks⟩, ends⟩, same⟩
    obtain ⟨more, rfl⟩ := tag_first tagged
    have size : ('@' :: more).length = paramTag.length := by
      simpa using congrArg List.length tagged
    obtain ⟨c, behind, closed, blank⟩ : ∃ c behind, rest ++ ['\n'] = c :: behind ∧
        Text.isBlank c = true := by
      cases rest with
      | nil => exact ⟨'\n', [], rfl, by decide⟩
      | cons c rest => exact ⟨c, rest ++ ['\n'], rfl, ends c rfl⟩
    have entry : (lead ++ '@' :: more ++ gap ++ word ++ rest ++ ['\n']).dropWhile
        (fun c => Text.isBlank c || c == '|') = '@' :: more ++ (gap ++ (word ++ c :: behind)) := by
      rw [← closed]
      simp only [List.append_assoc]
      rw [List.dropWhile_append_of_pos (by simpa using leads), List.cons_append,
        List.dropWhile_cons_of_neg (by decide)]
    rw [entry, ← size, List.take_left, List.drop_left]
    refine ⟨tagged, gap, _, rfl, blanks, fun _ => filled, ?_⟩
    exact startsWithWord_iff.mpr ⟨word, c, behind, rfl, same, blank⟩

private theorem isParamLine_iff_spells (apart : Text.NoLongS line name)
    (ascii : ∀ c ∈ name, c.toNat < 0x80) :
    isParamLine name line = true ↔ SpellsParam name line := by
  rw [isParamLine_iff, SpellsParam]
  refine exists₅_congr fun lead tag gap word rest => and_congr_right fun entry => ?_
  refine Text.map_foldLetter_eq_iff (apart.mono fun c inside => ?_) ascii
  rw [entry.whole]
  simp [inside]

end Matching

section Tokens

variable {name line lead tag gap word rest : List Char}

private theorem tag_ascii (tagged : tag.map Char.toLower = paramTag) :
    ∀ c ∈ tag, c.toNat < 0x80 := by
  intro c member
  have ascii := List.all_eq_true.mp (show paramTag.all (·.toNat < 0x80) = true by decide) c.toLower
    (tagged ▸ List.mem_map_of_mem member)
  rw [decide_eq_true_eq] at ascii
  by_contra beyond
  rw [Text.toLower_beyond (Nat.le_of_not_lt beyond)] at ascii
  exact beyond ascii

theorem tag_plain (tagged : tag.map Char.toLower = paramTag) : PlainWord tag := by
  intro c member
  have plain := List.all_eq_true.mp
    (show paramTag.all (fun d => !Token.isDelimiter d && d != '|') = true by decide) c.toLower
    (tagged ▸ List.mem_map_of_mem member)
  rw [Token.isDelimiter_toLower, Bool.and_eq_true, Bool.not_eq_true', bne_iff_ne] at plain
  exact ⟨plain.1, fun bar => plain.2 (by rw [bar]; decide)⟩

private theorem plain_of_same (same : List.Forall₂ Text.SameLetter word name)
    (plain : PlainWord name) :
    PlainWord word := by
  induction same with
  | nil => exact nofun
  | @cons c x word name letter same ih =>
    obtain ⟨first, others⟩ := List.forall_mem_cons.mp plain
    refine List.forall_mem_cons.mpr ⟨?_, ih others⟩
    rcases letter with letter | ⟨rfl, -⟩
    · rw [← Token.isDelimiter_toLower, letter, Token.isDelimiter_toLower]
      refine ⟨first.1, fun bar => first.2 ?_⟩
      rw [bar] at letter
      exact (Text.toLower_eq_iff (by decide)).mp letter.symm
    · decide

theorem PlainWord.solid (plain : PlainWord word) {c : Char} (member : c ∈ word) :
    Text.isBlank c = false ∧ c ≠ ';' ∧ c ≠ '|' := by
  obtain ⟨free, notBar⟩ := plain c member
  refine ⟨Bool.eq_false_iff.mpr fun blank => ?_, ?_, notBar⟩
  · rw [Grammar.delimiter_of_blank blank] at free
    cases free
  · rintro rfl
    cases free

theorem ne_glyph_of_blank {c : Char} (blank : Text.isBlank c = true) : c ≠ ';' ∧ c ≠ '|' := by
  constructor <;> rintro rfl <;> cases blank

def blankGlyph (c : Char) : Char :=
  if c = ';' || c = '|' then ' ' else c

private theorem map_blankGlyph (plain : ∀ c ∈ word, c ≠ ';' ∧ c ≠ '|') :
    word.map blankGlyph = word := by
  refine (List.map_congr_left fun c member => ?_).trans (List.map_id word)
  simp [blankGlyph, plain c member]

private theorem PlainWord.map_blankGlyph (plain : PlainWord word) : word.map blankGlyph = word :=
  DocComment.map_blankGlyph fun _ member => (plain.solid member).2

private theorem isBlank_blankGlyph {c : Char} (blank : Text.isBlank c = true ∨ c = '|') :
    Text.isBlank (blankGlyph c) = true := by
  rcases blank with blank | rfl
  · unfold blankGlyph
    split
    · decide
    · exact blank
  · decide

private theorem blankGlyph_ne_feed {c : Char} (flat : c ≠ '\n') : blankGlyph c ≠ '\n' := by
  unfold blankGlyph
  split
  · decide
  · exact flat

variable {sought : String}

private theorem blankGlyphs_entry (entry : EntryLine line lead tag gap word rest)
    (plain : PlainWord word) :
    blankGlyphs line =
      lead.map blankGlyph ++ tag ++ (gap ++ word ++ (rest ++ ['\n']).map blankGlyph) := by
  have kept : gap.map blankGlyph = gap :=
    map_blankGlyph fun c member => ne_glyph_of_blank (entry.gap.2 c member)
  change (line ++ ['\n']).map blankGlyph = _
  rw [entry.whole]
  simp only [List.map_append, (tag_plain entry.tag).map_blankGlyph, plain.map_blankGlyph, kept,
    List.append_assoc]

/-- The first two tokens on an entry are the tag and the word. -/
theorem lexemes_entry (entry : EntryLine line lead tag gap word rest) (plain : PlainWord word)
    (filled : word ≠ []) : ∃ more, (Lexing.ofText (blankGlyphs line)).lexemes =
      ⟨lead.map blankGlyph, ⟨.bare, tag⟩⟩ :: ⟨gap, ⟨.bare, word⟩⟩ :: more := by
  have leads : ∀ b ∈ lead.map blankGlyph, Text.isBlank b = true := by
    intro b member
    obtain ⟨c, inside, rfl⟩ := List.mem_map.mp member
    exact isBlank_blankGlyph (entry.lead c inside)
  have behindTag : ∀ c, (gap ++ word ++ (rest ++ ['\n']).map blankGlyph).head? = some c →
      Token.isDelimiter c = true := by
    intro c first
    obtain ⟨b, more, opened⟩ := List.exists_cons_of_ne_nil entry.gap.1
    rw [opened] at first
    obtain rfl := Option.some.inj first
    exact Grammar.delimiter_of_blank (entry.gap.2 b (by simp [opened]))
  have behindWord : ∀ c, ((rest ++ ['\n']).map blankGlyph).head? = some c →
      Token.isDelimiter c = true := by
    intro c first
    apply Grammar.delimiter_of_blank
    cases rest with
    | nil =>
      obtain rfl := Option.some.inj first
      decide
    | cons d rest =>
      obtain rfl := Option.some.inj first
      exact isBlank_blankGlyph (.inl (entry.ends d rfl))
  obtain ⟨tail, opened⟩ := tag_first entry.tag
  have lexes := Lexing.ofText_lexes (blankGlyphs line)
  generalize (Lexing.ofText (blankGlyphs line)).lexemes = lexemes at lexes ⊢
  rw [blankGlyphs_entry entry plain] at lexes
  obtain ⟨most, first, lexesMost⟩ := lexes.bare leads (by simp [opened])
    (fun c member => (tag_plain entry.tag c member).1) behindTag
  obtain ⟨more, second, -⟩ := lexesMost.bare entry.gap.2 filled
    (fun c member => (plain c member).1) behindWord
  exact ⟨more, by rw [first, second]⟩

private theorem lower_tag (tagged : tag.map Char.toLower = paramTag)
    (plain : PlainName sought.toList) :
    Text.lower (String.ofList tag) ≠ Text.lower sought := by
  intro same
  refine plain.other ?_
  rw [← String.toList_inj, Text.toList_lower, Text.toList_lower, String.toList_ofList,
    Text.smallLetters_of_ascii [] (tag_ascii tagged), Text.smallLetters_of_ascii [] plain.ascii,
    tagged] at same
  exact same.symm

/-- The token of an entry that is the name is the word. -/
theorem findWord?_entry (plain : PlainName sought.toList)
    (entry : EntryLine line lead tag gap word rest) (flat : '\n' ∉ line)
    (same : Text.lower (String.ofList word) = Text.lower sought) :
    findWord? sought line = some
      { symbol := String.ofList word, start := ⟨0, (lead ++ tag ++ gap).length⟩, index := 1 } := by
  have letters : List.Forall₂ Text.SameLetter word sought.toList := by
    rwa [← String.ofList_toList (s := sought), Text.lower_eq_iff plain.ascii] at same
  have filled : word ≠ [] := by
    rintro rfl
    exact plain.filled (List.forall₂_nil_left_iff.mp letters)
  obtain ⟨more, lexemes⟩ := lexemes_entry entry (plain_of_same letters plain.word) filled
  have front : '\n' ∉ lead.map blankGlyph ++ tag ++ gap := by
    rw [entry.whole] at flat
    simp only [List.mem_append, not_or, List.mem_map, not_exists, not_and] at flat ⊢
    obtain ⟨⟨⟨⟨inLead, inTag⟩, inGap⟩, -⟩, -⟩ := flat
    refine ⟨⟨fun c member => blankGlyph_ne_feed ?_, inTag⟩, inGap⟩
    rintro rfl
    exact inLead member
  have place := Position.advance_flat .origin front
  rw [Position.advance_append, Position.advance_append, List.length_append, List.length_append,
    List.length_map] at place
  rw [findWord?, ← Array.find?_toList, placeAtoms_toList, lexemes, atomsFrom, atomsFrom,
    List.nil_append, List.find?_cons_of_neg (by simpa [Atom.name] using lower_tag entry.tag plain),
    List.find?_cons_of_pos (by simpa [Atom.name] using same), place]
  simp [Position.origin, Nat.add_assoc]

end Tokens

section Search

variable {a : Atom} {name : String} {line : List Char} {above below : List (List Char)}

private theorem spells_opening (opened : line.head? = some ';') (name : List Char) :
    ¬ SpellsParam name line := by
  rintro ⟨lead, tag, gap, word, rest, ⟨rfl, leads, tagged, -, -⟩, -⟩
  obtain ⟨more, rfl⟩ := tag_first tagged
  cases lead with
  | nil => cases opened
  | cons c lead =>
    obtain rfl := Option.some.inj opened
    exact absurd (leads ';' List.mem_cons_self) (by decide)

/-- The line that opens a block comment is an entry for no name. -/
theorem lines_opened (block : a.isBlockComment = true) :
    ∃ first rest, Text.lines a.symbol.toList = first :: rest ∧
      ∀ name, ¬ SpellsParam name first := by
  obtain ⟨first, rest, listed, joined, -⟩ := Text.lines_spec a.symbol.toList
  refine ⟨first, rest, listed, spells_opening ?_⟩
  obtain ⟨body, opened⟩ := List.isPrefixOf_iff_prefix.mp block
  rw [← opened] at joined
  cases first with
  | nil =>
    cases rest with
    | nil => cases joined
    | cons line rest => exact absurd (List.cons.inj joined).1 (by decide)
  | cons c first => rw [← (List.cons.inj joined).1, List.head?_cons]

theorem above_filled {name : List Char} (block : a.isBlockComment = true)
    (split : Text.lines a.symbol.toList = above ++ line :: below) (spells : SpellsParam name line) :
    above ≠ [] := by
  rintro rfl
  obtain ⟨first, rest, listed, opened⟩ := lines_opened block
  rw [split] at listed
  exact opened name ((List.cons.inj listed).1 ▸ spells)

private theorem paramRange?_none (others : ∀ l ∈ Text.lines a.symbol.toList,
    isParamLine name.toList l = false) : paramRange? a name = none := by
  simp only [paramRange?, List.findIdx?_eq_none_iff.mpr others, Option.bind_none, ite_self]

private theorem paramRange?_first (block : a.isBlockComment = true)
    (split : Text.lines a.symbol.toList = above ++ line :: below)
    (others : ∀ l ∈ above, isParamLine name.toList l = false)
    (here : isParamLine name.toList line = true) :
    paramRange? a name = (findWord? name line).map fun word =>
      ⟨⟨a.line + above.length, word.start.character⟩,
        ⟨a.line + above.length, word.start.character + word.length⟩⟩ := by
  have index : (Text.lines a.symbol.toList).findIdx? (isParamLine name.toList) =
      some above.length := by
    rw [split, List.findIdx?_append, List.findIdx?_eq_none_iff.mpr others, List.findIdx?_cons, here]
    simp
  have found : (Text.lines a.symbol.toList)[above.length]? = some line := by
    simp [split]
  rw [paramRange?, if_pos block]
  simp only [index, found, Option.bind_some]

private theorem isParamLine_of_mem (apart : Text.NoLongS a.symbol.toList name.toList)
    (ascii : ∀ c ∈ name.toList, c.toNat < 0x80) (member : line ∈ Text.lines a.symbol.toList) :
    isParamLine name.toList line = true ↔ SpellsParam name.toList line := by
  obtain ⟨above, below, split⟩ := List.append_of_mem member
  refine isParamLine_iff_spells (apart.mono fun c inside => ?_) ascii
  rw [(Text.lines_split split).1]
  simp [inside]

/-- The place behind whole lines and a part of the next one. -/
theorem advance_line (p : Position) {part : List Char} (filled : above ≠ [])
    (flats : ∀ l ∈ above, '\n' ∉ l) (flat : '\n' ∉ part) :
    p.advance (Text.ended above ++ part) = ⟨p.line + above.length, part.length⟩ := by
  rw [Position.advance_append, Position.advance_ended p filled flats, Position.advance_flat _ flat,
    Nat.zero_add]

/-- The search finds nothing if no line below the opening one is an entry for the name, and the word
on the first such line otherwise. -/
theorem paramRange?_cases (block : a.isBlockComment = true)
    (apart : Text.NoLongS a.symbol.toList name.toList) (plain : PlainName name.toList) :
    (paramRange? a name = none ∧
      ∀ line ∈ Text.lines a.symbol.toList, ¬ SpellsParam name.toList line) ∨
    ∃ above line below lead tag gap word rest,
      Text.lines a.symbol.toList = above ++ line :: below ∧ above ≠ [] ∧
      (∀ l ∈ above, ¬ SpellsParam name.toList l) ∧ EntryLine line lead tag gap word rest ∧
      Text.lower (String.ofList word) = Text.lower name ∧
      paramRange? a name = some
        ⟨a.start.advance (Text.ended above ++ (lead ++ tag ++ gap)),
          a.start.advance (Text.ended above ++ (lead ++ tag ++ gap ++ word))⟩ := by
  have spells : ∀ line ∈ Text.lines a.symbol.toList,
      isParamLine name.toList line = true ↔ SpellsParam name.toList line :=
    fun line => isParamLine_of_mem apart plain.ascii
  cases found : (Text.lines a.symbol.toList).find? (isParamLine name.toList) with
  | none =>
    have others := List.find?_eq_none.mp found
    exact .inl ⟨paramRange?_none fun l member => Bool.eq_false_iff.mpr (others l member),
      fun line member entry => others line member ((spells line member).mpr entry)⟩
  | some line =>
    obtain ⟨here, above, below, split, before⟩ := List.find?_eq_some_iff_append.mp found
    have others : ∀ l ∈ above, isParamLine name.toList l = false := by simpa using before
    have entry := (spells line (by simp [split])).mp here
    have filled := above_filled block split entry
    obtain ⟨-, flats, flat⟩ := Text.lines_split split
    obtain ⟨lead, tag, gap, word, rest, entry, same⟩ := entry
    rw [String.ofList_toList] at same
    refine .inr ⟨above, line, below, lead, tag, gap, word, rest, split, filled, ?_, entry, same, ?_⟩
    · intro l member entry
      exact Bool.eq_false_iff.mp (others l member) ((spells l (by simp [split, member])).mpr entry)
    · have inside : '\n' ∉ lead ++ tag ++ gap ++ word := by
        rw [entry.whole] at flat
        exact fun feed => flat (List.mem_append_left rest feed)
      rw [paramRange?_first block split others here, findWord?_entry plain entry flat same,
        advance_line a.start filled flats fun feed => inside (List.mem_append_left word feed),
        advance_line a.start filled flats inside]
      simp [Atom.length, Atom.line, Nat.add_assoc]

theorem paramRange?_isSome_iff (block : a.isBlockComment = true)
    (apart : Text.NoLongS a.symbol.toList name.toList) (plain : PlainName name.toList) :
    (paramRange? a name).isSome = true ↔
      ∃ line ∈ (Text.lines a.symbol.toList).tail, SpellsParam name.toList line := by
  rcases paramRange?_cases block apart plain with ⟨missing, others⟩ |
    ⟨above, line, below, lead, tag, gap, word, rest, split, filled, -, entry, same, found⟩
  · rw [missing]
    refine iff_of_false Bool.false_ne_true ?_
    rintro ⟨line, member, spells⟩
    exact others line (List.mem_of_mem_tail member) spells
  · rw [found]
    refine iff_of_true rfl ⟨line, ?_, lead, tag, gap, word, rest, entry, ?_⟩
    · obtain ⟨head, above, rfl⟩ := List.exists_cons_of_ne_nil filled
      simp [split]
    · rwa [String.ofList_toList]

end Search

/-- Where a block comment of a text names a parameter: what is around the comment, the first line
below its opening one that is an entry for the name, and the parts of that line. -/
structure ParamPlace (text : List Char) (a : Atom) (name : List Char) where
  before : List Char
  after : List Char
  above : List (List Char)
  line : List Char
  below : List (List Char)
  lead : List Char
  tag : List Char
  gap : List Char
  word : List Char
  rest : List Char
  occurs : a.Occurs text before after
  lines : Text.lines a.symbol.toList = above ++ line :: below
  opened : above ≠ []
  first : ∀ l ∈ above, ¬ SpellsParam name l
  entry : EntryLine line lead tag gap word rest
  same : Text.lower (String.ofList word) = Text.lower (String.ofList name)

namespace ParamPlace

variable {text : List Char} {a : Atom} {name : List Char}

def front (p : ParamPlace text a name) : List Char :=
  p.before ++ (Text.ended p.above ++ (p.lead ++ p.tag ++ p.gap))

def range (p : ParamPlace text a name) : Range :=
  ⟨.ofOffset text p.front.length, .ofOffset text (p.front ++ p.word).length⟩

private theorem symbol_eq (p : ParamPlace text a name) : a.symbol.toList =
    Text.ended p.above ++ (p.lead ++ p.tag ++ p.gap ++ p.word) ++
      (p.rest ++ p.below.flatMap ('\n' :: ·)) := by
  rw [(Text.lines_split p.lines).1, p.entry.whole]
  simp only [List.append_assoc]

private theorem isPrefix (p : ParamPlace text a name) : p.front ++ p.word <+: text := by
  refine ⟨p.rest ++ p.below.flatMap ('\n' :: ·) ++ p.after, Eq.symm ?_⟩
  calc text = p.before ++ a.symbol.toList ++ p.after := p.occurs.1
    _ = _ := by rw [p.symbol_eq, front]; simp only [List.append_assoc]

private theorem range_eq (p : ParamPlace text a name) : p.range =
    ⟨a.start.advance (Text.ended p.above ++ (p.lead ++ p.tag ++ p.gap)),
      a.start.advance (Text.ended p.above ++ (p.lead ++ p.tag ++ p.gap ++ p.word))⟩ := by
  rw [range, Position.ofOffset_of_prefix p.isPrefix,
    Position.ofOffset_of_prefix ((List.prefix_append _ _).trans p.isPrefix), p.occurs.2,
    ← Position.advance_append, ← Position.advance_append, front]
  simp only [List.append_assoc]

private theorem range_within (p : ParamPlace text a name) : p.range.Within a.range := by
  rw [range_eq]
  refine ⟨a.start.le_advance _, ?_⟩
  rw [Atom.range, Atom.stop, p.symbol_eq, Position.advance_append _ (_ ++ (_ ++ p.word))]
  exact Position.le_advance _ _

end ParamPlace

/-- A parameter is found in a block comment exactly if a line below the opening one is an entry for
it, and its range holds the name on the first such line. -/
theorem paramRange?_locates (native : String → Bool) (text : String) (a : Atom) (name : String)
    (member : a ∈ (Document.build native text).atoms ∨ a ∈ (Document.parse native text).atoms)
    (block : a.isBlockComment = true)
    (apart : Text.NoLongS a.symbol.toList name.toList) (plain : PlainName name.toList) :
    ((paramRange? a name).isSome = true ↔
      ∃ line ∈ (Text.lines a.symbol.toList).tail, SpellsParam name.toList line) ∧
    ∀ r, paramRange? a name = some r → ∃ p : ParamPlace text.toList a name.toList,
      r = p.range ∧ p.front ++ p.word <+: text.toList ∧ r.Within a.range := by
  refine ⟨paramRange?_isSome_iff block apart plain, ?_⟩
  intro r ranged
  obtain ⟨before, after, occurs⟩ : ∃ before after, a.Occurs text.toList before after := by
    rcases member with built | parsed
    · exact build_occurs native text a built.val
    · exact parse_occurs native text a parsed.val
  rcases paramRange?_cases block apart plain with ⟨missing, -⟩ |
    ⟨above, line, below, lead, tag, gap, word, rest, lines, opened, first, entry, same, found⟩
  · cases missing.symm.trans ranged
  · rw [← String.ofList_toList (s := name)] at same
    let p : ParamPlace text.toList a name.toList := ⟨before, after, above, line, below, lead, tag,
      gap, word, rest, occurs, lines, opened, first, entry, same⟩
    have place : r = p.range := by
      rw [p.range_eq]
      exact Option.some.inj (ranged.symm.trans found)
    exact ⟨p, place, p.isPrefix, place ▸ p.range_within⟩

/-- A name in another letter case, behind the bar of its line. -/
theorem paramRange?_locates_recased :
    let text := "(f) ;|\n |@PARAM Pt x|;"
    let a : Atom := ⟨";|\n |@PARAM Pt x|;", ⟨0, 4⟩, 3, [], false⟩
    a ∈ (Document.build (fun _ => false) text).atoms ∧ a.isBlockComment = true ∧
      Text.NoLongS a.symbol.toList "pt".toList ∧ PlainName "pt".toList ∧
      ∃ p : ParamPlace text.toList a "pt".toList, paramRange? a "pt" = some p.range ∧
        p.front ++ p.word <+: text.toList ∧ p.range.Within a.range := by
  have plain : PlainName "pt".toList := ⟨by decide, by simp, by simp [PlainWord]; decide, by decide⟩
  have member : (⟨";|\n |@PARAM Pt x|;", ⟨0, 4⟩, 3, [], false⟩ : Atom) ∈
      (Document.build (fun _ => false) "(f) ;|\n |@PARAM Pt x|;").atoms := by decide +kernel
  have apart : Text.NoLongS ";|\n |@PARAM Pt x|;".toList "pt".toList :=
    fun long => absurd long (by decide)
  obtain ⟨found, places⟩ := paramRange?_locates _ _ _ "pt" (.inl member) (by decide) apart plain
  refine ⟨member, by decide, apart, plain, ?_⟩
  obtain ⟨r, ranged⟩ := Option.isSome_iff_exists.mp (found.mpr ⟨" |@PARAM Pt x|;".toList, by decide,
    " |".toList, "@PARAM".toList, [' '], "Pt".toList, " x|;".toList,
    ⟨by decide, by simp; decide, by decide, by simp; decide, by simp [Gapped]; decide⟩,
    by decide +kernel⟩)
  obtain ⟨p, rfl, covered, within⟩ := places r ranged
  exact ⟨p, ranged, covered, within⟩

end DocComment

end LispIndex
