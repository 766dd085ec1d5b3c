import LispIndex.Proofs.CommentBlocks
import LispIndex.Proofs.ParamPlaces
import Mathlib.Data.List.DropRight

/-!
Entries of parameters against the places of their names. A block comment is read in two ways, with
its lines in normal form for the entries and as they are written for the places. Both have the same
name on a line whose word no glyph touches; a glyph behind the word is taken away by the first
reading only, so that there are entries whose name has no place.
-/

namespace LispIndex

namespace DocComment

section Normal

variable {front word back line : List Char}

def squeeze (line : List Char) : List Char :=
  (pairBlanks [] (line.map fun c => if c = '\t' then ' ' else c)).filter fun c =>
    c != ';' && c != '|'

private theorem normalize_eq (line : List Char) :
    normalize line = Text.trim (joinTag (squeeze line)) :=
  rfl

private theorem pairBlanks_eq (done text : List Char) :
    pairBlanks done text = done.reverse ++ pairBlanks [] text := by
  induction text using List.twoStepInduction generalizing done with
  | nil => simp [pairBlanks]
  | singleton c => simp [pairBlanks]
  | cons_cons a b rest ih later =>
    rw [pairBlanks, pairBlanks]
    split
    · rw [ih (' ' :: done), ih [' ']]
      simp
    · rw [later b (a :: done), later b [a]]
      simp

private theorem pairBlanks_two (a b : Char) (rest : List Char) : pairBlanks [] (a :: b :: rest) =
    if Text.isBlank a && Text.isBlank b then ' ' :: pairBlanks [] rest
    else a :: pairBlanks [] (b :: rest) := by
  rw [pairBlanks, pairBlanks_eq [' '], pairBlanks_eq [a]]
  rfl

/-- No pair of blanks goes over a character that is none. -/
theorem pairBlanks_solid {c : Char} (solid : Text.isBlank c = false) (front back : List Char) :
    pairBlanks [] (front ++ c :: back) = pairBlanks [] front ++ c :: pairBlanks [] back := by
  have here : pairBlanks [] (c :: back) = c :: pairBlanks [] back := by
    cases back with
    | nil => rfl
    | cons b back => simp [pairBlanks_two, solid]
  induction front using List.twoStepInduction with
  | nil => exact here
  | singleton a =>
    rw [List.singleton_append, pairBlanks_two, solid, Bool.and_false, if_neg Bool.false_ne_true,
      here]
    rfl
  | cons_cons a b rest ih later =>
    simp only [List.cons_append, pairBlanks_two] at later ⊢
    split
    · rw [ih, List.cons_append]
    · rw [later b, List.cons_append]

private theorem pairBlanks_blank {b : Char} (blank : Text.isBlank b = true) (rest : List Char) :
    ∃ d more, pairBlanks [] (b :: rest) = d :: more ∧ Text.isBlank d = true := by
  cases rest with
  | nil => exact ⟨b, [], rfl, blank⟩
  | cons c rest =>
    rw [pairBlanks_two]
    split
    · exact ⟨' ', _, rfl, by decide⟩
    · exact ⟨b, _, rfl, blank⟩

theorem mem_pairBlanks {c : Char} {text : List Char} (member : c ∈ pairBlanks [] text) :
    c = ' ' ∨ c ∈ text := by
  induction text using List.twoStepInduction with
  | nil => exact .inr member
  | singleton a => exact .inr member
  | cons_cons a b rest ih later =>
    rw [pairBlanks_two] at member
    split at member
    · rcases List.mem_cons.mp member with space | inside
      · exact .inl space
      · exact (ih inside).imp_right fun known => by simp [known]
    · rcases List.mem_cons.mp member with rfl | inside
      · exact .inr List.mem_cons_self
      · exact (later b inside).imp_right (List.mem_cons_of_mem a)

private theorem squeeze_solid {c : Char} (solid : Text.isBlank c = false ∧ c ≠ ';' ∧ c ≠ '|')
    (front back : List Char) :
    squeeze (front ++ c :: back) = squeeze front ++ c :: squeeze back := by
  have notTab : c ≠ '\t' := by
    rintro rfl
    cases solid.1
  rw [squeeze, List.map_append, List.map_cons, if_neg notTab, pairBlanks_solid solid.1,
    List.filter_append, List.filter_cons_of_pos (by simp [solid.2])]
  rfl

private theorem squeeze_word (plain : PlainWord word) (back : List Char) :
    squeeze (word ++ back) = word ++ squeeze back := by
  induction word with
  | nil => rfl
  | cons c word ih =>
    have later := ih fun d member => plain d (List.mem_cons_of_mem c member)
    have first := squeeze_solid (plain.solid List.mem_cons_self) [] (word ++ back)
    rw [List.nil_append, later] at first
    exact first

private theorem squeeze_around (plain : PlainWord word) (filled : word ≠ [])
    (front back : List Char) :
    squeeze (front ++ word ++ back) = squeeze front ++ word ++ squeeze back := by
  obtain ⟨c, word, rfl⟩ := List.exists_cons_of_ne_nil filled
  have later : PlainWord word := fun d member => plain d (List.mem_cons_of_mem c member)
  rw [List.append_assoc, List.cons_append, squeeze_solid (plain.solid List.mem_cons_self),
    squeeze_word later, List.append_assoc, List.cons_append]

private theorem squeeze_blank {b : Char} (blank : Text.isBlank b = true) (rest : List Char) :
    ∃ d more, squeeze (b :: rest) = d :: more ∧ Text.isBlank d = true := by
  have mapped : Text.isBlank (if b = '\t' then ' ' else b) = true := by
    split
    · decide
    · exact blank
  obtain ⟨d, more, paired, kept⟩ := pairBlanks_blank mapped
    (rest.map fun c => if c = '\t' then ' ' else c)
  refine ⟨d, more.filter fun c => c != ';' && c != '|', ?_, kept⟩
  rw [squeeze, List.map_cons, paired, List.filter_cons_of_pos]
  simpa using ne_glyph_of_blank kept

private theorem squeeze_blanks (blanks : ∀ c ∈ front, Text.isBlank c = true ∨ c = '|') :
    ∀ c ∈ squeeze front, Text.isBlank c = true := by
  intro c member
  obtain ⟨paired, kept⟩ := List.mem_filter.mp member
  rcases mem_pairBlanks paired with rfl | mapped
  · decide
  · obtain ⟨d, inside, rfl⟩ := List.mem_map.mp mapped
    by_cases tab : d = '\t'
    · rw [if_pos tab]
      decide
    · rw [if_neg tab] at kept ⊢
      exact (blanks d inside).resolve_right fun bar => by simp [bar] at kept

private theorem Gapped.squeeze (gapped : Gapped back) : Gapped (squeeze back) := by
  cases back with
  | nil => exact nofun
  | cons b back =>
    obtain ⟨d, more, squeezed, blank⟩ := squeeze_blank (gapped b rfl) back
    intro c first
    rw [squeezed] at first
    obtain rfl := Option.some.inj first
    exact blank

private theorem Gapped.of_prefix (gapped : Gapped back) (ahead : front <+: back) :
    Gapped front := by
  obtain ⟨rest, rfl⟩ := ahead
  cases front with
  | nil => exact nofun
  | cons c front => exact gapped

theorem Gapped.append (left : Gapped front) (right : Gapped back) : Gapped (front ++ back) := by
  cases front with
  | nil => exact right
  | cons c front => exact left

/-- Trimming keeps what is between two characters that are no blanks. -/
theorem trim_core {core : List Char} {c d : Char} (blanks : ∀ b ∈ front, Text.isBlank b = true)
    (first : core.head? = some c) (solid : Text.isBlank c = false)
    (last : core.getLast? = some d) (closed : Text.isBlank d = false) :
    Text.trim (front ++ core ++ back) = core ++ back.rdropWhile Text.isBlank := by
  have opened : (core ++ back).dropWhile Text.isBlank = core ++ back := by
    obtain ⟨more, rfl⟩ := List.head?_eq_some_iff.mp first
    exact List.dropWhile_cons_of_neg (by simp [solid])
  have ended : core.reverse.dropWhile Text.isBlank = core.reverse := by
    obtain ⟨more, rfl⟩ := List.getLast?_eq_some_iff.mp last
    rw [List.reverse_append]
    exact List.dropWhile_cons_of_neg (by simp [closed])
  rw [Text.trim, List.append_assoc, List.dropWhile_append_of_pos blanks, opened,
    List.reverse_append, List.dropWhile_append, ended, List.rdropWhile]
  split
  · next none => simp [List.isEmpty_iff.mp none]
  · rw [List.reverse_append, List.reverse_reverse]

private theorem joinTag_eq (apart : ∀ b rest, line = '@' :: b :: rest → Text.isBlank b = false) :
    joinTag line = line := by
  unfold joinTag
  split
  · next rest =>
    cases rest with
    | nil => rfl
    | cons b rest => rw [List.dropWhile_cons_of_neg (by simp [apart b rest rfl])]
  · rfl

private theorem PlainWord.first (plain : PlainWord word) (filled : word ≠ []) :
    ∃ c, word.head? = some c ∧ Text.isBlank c = false :=
  ⟨word.head filled, List.head?_eq_some_head filled, (plain.solid (List.head_mem filled)).1⟩

private theorem PlainWord.last (plain : PlainWord word) (filled : word ≠ []) :
    ∃ c, word.getLast? = some c ∧ Text.isBlank c = false :=
  ⟨word.getLast filled, List.getLast?_eq_some_getLast filled,
    (plain.solid (List.getLast_mem filled)).1⟩

private theorem trim_word (plain : PlainWord word) (filled : word ≠ []) (front back : List Char)
    (blanks : ∀ b ∈ front, Text.isBlank b = true) :
    Text.trim (front ++ word ++ back) = word ++ back.rdropWhile Text.isBlank := by
  obtain ⟨c, first, solid⟩ := plain.first filled
  obtain ⟨d, last, closed⟩ := plain.last filled
  exact trim_core blanks first solid last closed

/-- A word in front of a text is there in the normal form too, unless it is a lone sign. -/
theorem normalize_word (plain : PlainWord word) (filled : word ≠ []) (sign : word ≠ ['@'])
    (gapped : Gapped back) :
    ∃ behind, normalize (word ++ back) = word ++ behind ∧ Gapped behind := by
  refine ⟨(squeeze back).rdropWhile Text.isBlank, ?_,
    gapped.squeeze.of_prefix (List.rdropWhile_prefix _ _)⟩
  have signed : ∀ b rest, word ++ squeeze back = '@' :: b :: rest → Text.isBlank b = false := by
    intro b rest opened
    obtain ⟨c, more, rfl⟩ := List.exists_cons_of_ne_nil filled
    obtain ⟨rfl, behind⟩ := List.cons.inj opened
    cases more with
    | nil => exact absurd rfl sign
    | cons d more =>
      obtain ⟨rfl, -⟩ := List.cons.inj behind
      exact (plain.solid (List.mem_cons_of_mem _ List.mem_cons_self)).1
  rw [normalize_eq, squeeze_word plain, joinTag_eq signed]
  exact trim_word plain filled [] _ nofun

end Normal

section Entry

variable {line lead tag gap word rest : List Char}

private theorem tag_second (tagged : tag.map Char.toLower = paramTag) :
    ∃ c more, tag = '@' :: c :: more := by
  obtain ⟨more, rfl⟩ := tag_first tagged
  cases more with
  | nil => cases tagged
  | cons c more => exact ⟨c, more, rfl⟩

private theorem normalize_entry (entry : EntryLine line lead tag gap word rest)
    (plain : PlainWord word) (filled : word ≠ []) : normalize line =
      tag ++ squeeze gap ++ word ++ (squeeze rest).rdropWhile Text.isBlank := by
  obtain ⟨p, more, opened⟩ := tag_second entry.tag
  have tagPlain := tag_plain entry.tag
  have squeezed : squeeze line =
      squeeze lead ++ (tag ++ squeeze gap ++ word) ++ squeeze rest := by
    have around : line = lead ++ tag ++ (gap ++ word ++ rest) := by
      rw [entry.whole]
      simp only [List.append_assoc]
    rw [around, squeeze_around tagPlain (by simp [opened]), squeeze_around plain filled]
    simp only [List.append_assoc]
  have leads := squeeze_blanks entry.lead
  -- A sign at the front is that of the tag, which has its first letter behind it.
  have signed : ∀ b rest, squeeze line = '@' :: b :: rest → Text.isBlank b = false := by
    intro b behind first
    rw [squeezed, opened] at first
    cases none : squeeze lead with
    | nil =>
      rw [none] at first
      obtain ⟨-, second⟩ := List.cons.inj first
      obtain ⟨rfl, -⟩ := List.cons.inj second
      exact (tagPlain.solid (by simp [opened])).1
    | cons c others =>
      rw [none] at first
      obtain ⟨rfl, -⟩ := List.cons.inj first
      exact absurd (leads '@' (by simp [none])) (by decide)
  obtain ⟨d, last, closed⟩ := plain.last filled
  rw [normalize_eq, joinTag_eq signed, squeezed]
  refine trim_core leads (c := '@') ?_ (by decide) (d := d) ?_ closed
  · rw [opened]
    rfl
  · rw [List.getLast?_append, last]
    rfl

theorem joined_cons (first : List Char) (more : List (List Char)) :
    joined (first :: more) = first ++ more.flatMap (' ' :: ·) := by
  induction more generalizing first with
  | nil => simp [joined, List.intercalate]
  | cons line more ih =>
    rw [List.flatMap_cons, List.cons_append, ← ih line]
    simp [joined, List.intercalate]

/-- The text of the block that an entry opens starts with the word of the entry. -/
theorem text_entry (entry : EntryLine line lead tag gap word rest) (plain : PlainWord word)
    (filled : word ≠ [])
    (tagged : ((normalize line).takeWhile (· != ' ')).map Char.toLower = paramTag)
    (more : List (List Char)) :
    ∃ back, Block.text ⟨normalize line, more⟩ = word ++ back ∧ Gapped back := by
  have normal := normalize_entry entry plain filled
  have ends : Gapped ((squeeze rest).rdropWhile Text.isBlank) :=
    entry.ends.squeeze.of_prefix (List.rdropWhile_prefix _ _)
  generalize (squeeze rest).rdropWhile Text.isBlank = back at normal ends
  have tagPart : ∀ c ∈ tag, (c != ' ') = true := by
    intro c member
    rw [bne_iff_ne]
    rintro rfl
    cases ((tag_plain entry.tag).solid member).1
  rw [List.append_assoc, List.append_assoc] at normal
  -- The word of the tag line is the tag and nothing else, so that a space follows it.
  have none : (squeeze gap ++ (word ++ back)).takeWhile (· != ' ') = [] := by
    rw [normal, List.takeWhile_append_of_pos tagPart, List.map_append, entry.tag] at tagged
    exact List.map_eq_nil_iff.mp (List.append_right_eq_self.mp tagged)
  have behind : (normalize line).dropWhile (· != ' ') = squeeze gap ++ word ++ back := by
    have split := List.takeWhile_append_dropWhile (p := (· != ' '))
      (l := squeeze gap ++ (word ++ back))
    rw [none, List.nil_append] at split
    rw [normal, List.dropWhile_append_of_pos tagPart, split, List.append_assoc]
  have blanks := squeeze_blanks fun c member => Or.inl (entry.gap.2 c member)
  refine ⟨back.rdropWhile Text.isBlank ++ more.flatMap (' ' :: ·), ?_, ?_⟩
  · rw [Block.text, Block.content, behind, trim_word plain filled _ back blanks, joined_cons,
      List.append_assoc]
  · apply (ends.of_prefix (List.rdropWhile_prefix _ _)).append
    cases more with
    | nil => rintro c ⟨⟩
    | cons line more =>
      intro c first
      obtain rfl := Option.some.inj first
      decide

private theorem name_of_splits {back : List Char} {e : DocEntry} (plain : PlainWord word)
    (gapped : Gapped back) (splits : Splits (word ++ back) e) (named : PlainWord e.name.toList) :
    e.name = String.ofList word := by
  obtain ⟨value, whole, spaced⟩ : ∃ value, word ++ back = e.name.toList ++ value ∧
      ∀ c, value.head? = some c → c = ' ' := by
    rcases splits with ⟨name, value, whole, -, rfl⟩ | ⟨-, rfl⟩
    · refine ⟨' ' :: value, ?_, fun c first => (Option.some.inj first).symm⟩
      rw [whole, String.toList_ofList]
    · exact ⟨[], by simp, nofun⟩
  rw [← String.toList_inj, String.toList_ofList]
  -- The name could only be longer by a blank and the word only by a space, and neither has one.
  rcases List.append_eq_append_iff.mp whole with ⟨more, longer, behind⟩ | ⟨more, shorter, behind⟩
  · cases more with
    | nil => rw [longer, List.append_nil]
    | cons c more =>
      have blank := gapped c (by rw [behind]; rfl)
      have solid := (named.solid (c := c) (by simp [longer])).1
      cases blank.symm.trans solid
  · cases more with
    | nil => rw [shorter, List.append_nil]
    | cons c more =>
      obtain rfl := spaced c (by rw [behind]; rfl)
      cases (plain.solid (c := ' ') (by simp [shorter])).1

end Entry

section Reported

variable {a : Atom} {above below : List (List Char)} {line : List Char} {e : DocEntry}

def opensParam (line : List Char) : Bool :=
  isTagLine line && Block.isTagged "@PARAM" ⟨line, []⟩

/-- The comment has an entry from one of its lines: it comes behind as many entries as lines above
open one. -/
structure Reports (a : Atom) (above : List (List Char)) (line : List Char)
    (below : List (List Char)) (e : DocEntry) : Prop where
  lines : Text.lines a.symbol.toList = above ++ line :: below
  opens : opensParam (normalize line) = true
  entry : (ofAtom a).params[(above.map normalize).countP opensParam]? = some e

theorem blocksOf_append (above below : List (List Char)) :
    ∃ front, blocksOf (above ++ below) = front ++ blocksOf below ∧
      (front.filter (·.isTagged "@PARAM")).length = above.countP opensParam := by
  induction above with
  | nil => exact ⟨[], rfl, rfl⟩
  | cons line above ih =>
    obtain ⟨front, appended, count⟩ := ih
    rw [List.cons_append, blocksOf, List.countP_cons]
    cases tagged : isTagLine line with
    | false => exact ⟨front, by simpa using appended, by simp [opensParam, tagged, count]⟩
    | true =>
      refine ⟨⟨line, (above ++ below).takeWhile (!isTagLine ·)⟩ :: front, ?_, ?_⟩
      · rw [if_pos rfl, appended]
        rfl
      · have word (more : List (List Char)) :
            Block.isTagged "@PARAM" ⟨line, more⟩ = Block.isTagged "@PARAM" ⟨line, []⟩ := rfl
        rw [List.filter_cons, word, opensParam, tagged, Bool.true_and, ← count]
        split <;> rfl

private theorem opensParam_filled (opens : opensParam line = true) : (!line.isEmpty) = true := by
  cases line with
  | nil => cases opens
  | cons c line => rfl

private theorem countP_filled (lines : List (List Char)) :
    (lines.filter (!·.isEmpty)).countP opensParam = lines.countP opensParam := by
  rw [List.countP_filter]
  refine List.countP_congr fun line _ => ?_
  rw [Bool.and_eq_true]
  exact ⟨And.left, fun opens => ⟨opens, opensParam_filled opens⟩⟩

/-- An entry is made from the block that its line opens. -/
theorem Reports.splits (comment : a.isComment = true) (reports : Reports a above line below e) :
    ∃ more, Splits (normalize (Block.text ⟨normalize line, more⟩)) e := by
  obtain ⟨lines, opens, entry⟩ := reports
  obtain ⟨opened, tagged⟩ := Bool.and_eq_true_iff.mp opens
  have split : docLines a = (above.map normalize).filter (!·.isEmpty) ++
      normalize line :: (below.map normalize).filter (!·.isEmpty) := by
    rw [docLines, lines, List.map_append, List.filter_append, List.map_cons,
      List.filter_cons_of_pos (by simpa using opensParam_filled opens)]
  have params := (documents_of_cut (cut_blocksOf (docLines a))).params
  have read : ((docLines a).foldl Draft.add {}).finish = ofAtom a := by
    rw [ofAtom, if_pos comment]
    rfl
  rw [read] at params
  obtain ⟨front, appended, count⟩ := blocksOf_append ((above.map normalize).filter (!·.isEmpty))
    (normalize line :: (below.map normalize).filter (!·.isEmpty))
  rw [countP_filled] at count
  generalize (below.map normalize).filter (!·.isEmpty) = rest at split appended
  have here : Block.isTagged "@PARAM" ⟨normalize line, rest.takeWhile (!isTagLine ·)⟩ = true :=
    tagged
  have found : ((blocksOf (docLines a)).filter (·.isTagged "@PARAM"))[
      (above.map normalize).countP opensParam]? =
        some ⟨normalize line, rest.takeWhile (!isTagLine ·)⟩ := by
    rw [split, appended, blocksOf, if_pos opened, List.filter_append,
      List.getElem?_append_right count.le, count, Nat.sub_self, List.filter_cons, here]
    rfl
  refine ⟨rest.takeWhile (!isTagLine ·), ?_⟩
  apply List.forall₂_zip params
  apply List.mem_iff_getElem?.mpr
  exact ⟨_, List.getElem?_zip_eq_some.mpr ⟨found, entry⟩⟩

end Reported

/-- A line that both readings take in the same way: no glyph touches its word, and the word is no
lone sign, which would be joined to what follows it. -/
structure CleanEntry (line lead tag gap word rest : List Char) : Prop
    extends EntryLine line lead tag gap word rest where
  plain : PlainWord word
  filled : word ≠ []
  sign : word ≠ ['@']

structure Documented (a : Atom) (above : List (List Char)) (line : List Char)
    (below : List (List Char)) (e : DocEntry) : Prop extends Reports a above line below e where
  block : a.isBlockComment = true
  tag : ((normalize line).takeWhile (· != ' ')).map Char.toLower = paramTag
  plain : PlainName e.name.toList

/-- The name of a documented parameter is found exactly if a line below the opening one is an entry
for it as it is written, and so if the line that documents it is clean. -/
theorem paramRange?_documented (a : Atom) (above : List (List Char)) (line : List Char)
    (below : List (List Char)) (e : DocEntry) (documented : Documented a above line below e)
    (apart : Text.NoLongS a.symbol.toList e.name.toList) :
    ((paramRange? a e.name).isSome = true ↔
      ∃ l ∈ (Text.lines a.symbol.toList).tail, SpellsParam e.name.toList l) ∧
    ∀ lead tag gap word rest, CleanEntry line lead tag gap word rest →
      e.name = String.ofList word ∧ (paramRange? a e.name).isSome = true := by
  obtain ⟨reports, block, tagged, plain⟩ := documented
  have found := paramRange?_isSome_iff block apart plain
  refine ⟨found, ?_⟩
  intro lead tag gap word rest clean
  have entry := clean.toEntryLine
  have comment : a.isComment = true := by
    obtain ⟨body, opened⟩ := List.isPrefixOf_iff_prefix.mp block
    exact List.isPrefixOf_iff_prefix.mpr ⟨'|' :: body, opened⟩
  obtain ⟨more, splits⟩ := reports.splits comment
  obtain ⟨back, text, gapped⟩ := text_entry entry clean.plain clean.filled tagged more
  obtain ⟨behind, normal, ends⟩ := normalize_word clean.plain clean.filled clean.sign gapped
  rw [text, normal] at splits
  have named := name_of_splits clean.plain ends splits plain.word
  have spells : SpellsParam e.name.toList line := by
    refine ⟨lead, tag, gap, word, rest, entry, ?_⟩
    rw [named, String.toList_ofList]
  refine ⟨named, found.mpr ⟨line, ?_, spells⟩⟩
  obtain ⟨first, others, rfl⟩ :=
    List.exists_cons_of_ne_nil (above_filled block reports.lines spells)
  simp [reports.lines]

def comment (symbol : String) : Atom :=
  { symbol, start := .origin, index := 0 }

theorem paramRange?_documented_bar :
    Documented (comment ";|\n| @PARAM  Pt x|;") [";|".toList] "| @PARAM  Pt x|;".toList []
      ⟨"Pt", "x"⟩ ∧
    Text.NoLongS ";|\n| @PARAM  Pt x|;".toList "Pt".toList ∧
    (paramRange? (comment ";|\n| @PARAM  Pt x|;") "Pt").isSome = true := by
  have plain : PlainName "Pt".toList := ⟨by decide, by simp, by simp [PlainWord]; decide, by decide⟩
  have documented : Documented (comment ";|\n| @PARAM  Pt x|;") [";|".toList]
      "| @PARAM  Pt x|;".toList [] ⟨"Pt", "x"⟩ :=
    ⟨⟨by decide, by decide, by decide⟩, by decide, by decide, plain⟩
  have apart : Text.NoLongS ";|\n| @PARAM  Pt x|;".toList "Pt".toList :=
    fun long => absurd long (by decide)
  have clean : CleanEntry "| @PARAM  Pt x|;".toList "| ".toList "@PARAM".toList "  ".toList
      "Pt".toList " x|;".toList :=
    ⟨⟨by decide, by simp; decide, by decide, by simp; decide, by simp [Gapped]; decide⟩,
      plain.word, plain.filled, by decide⟩
  have found := (paramRange?_documented _ _ _ _ _ documented apart).2 _ _ _ _ _ clean
  exact ⟨documented, apart, found.2⟩

/-- The glyph that closes the comment hides the name before it, and a long s that is taken for an s
hides the name on a later line. -/
theorem paramRange?_hidden :
    (Documented (comment ";|\n@Param pt|;") [";|".toList] "@Param pt|;".toList [] ⟨"pt", ""⟩ ∧
      paramRange? (comment ";|\n@Param pt|;") "pt" = none) ∧
    Documented (comment ";|\n@Param \u017f\n@Param s\n|;") [";|".toList, "@Param \u017f".toList]
      "@Param s".toList ["|;".toList] ⟨"s", ""⟩ ∧
    paramRange? (comment ";|\n@Param \u017f\n@Param s\n|;") "s" = none := by
  have pt : PlainName "pt".toList := ⟨by decide, by simp, by simp [PlainWord]; decide, by decide⟩
  have s : PlainName "s".toList := ⟨by decide, by simp, by simp [PlainWord]; decide, by decide⟩
  refine ⟨⟨⟨⟨?_, ?_, ?_⟩, ?_, ?_, pt⟩, ?_⟩, ⟨⟨?_, ?_, ?_⟩, ?_, ?_, s⟩, ?_⟩
  all_goals decide +kernel

end DocComment

end LispIndex
