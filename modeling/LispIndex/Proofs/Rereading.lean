import LispIndex.Proofs.FormShape
import LispIndex.Proofs.Spacing
import Mathlib.Data.List.Chain

/-!
Reading a written text again. Tokens end where they ended before, with the exception of line
comments: one that is written with a space behind it takes in what follows.
-/

namespace LispIndex

namespace Token

private theorem splitString_swap (seen text other : List Char)
    (ends : (splitString seen text).2 = [] → other = []) :
    ∃ body, (splitString seen text).1 = seen.reverse ++ body ∧
      splitString seen (body ++ other) = ((splitString seen text).1, other) := by
  fun_induction splitString seen text with
  | case1 seen =>
    obtain rfl := ends rfl
    exact ⟨[], by simp, rfl⟩
  | case2 seen rest => exact ⟨['\x22'], by simp, rfl⟩
  | case3 seen c rest ih =>
    obtain ⟨body, taken, same⟩ := ih ends
    exact ⟨'\\' :: c :: body, by simp [taken], same⟩
  | case4 seen c rest notQuote notEscape ih =>
    obtain ⟨body, taken, same⟩ := ih ends
    refine ⟨c :: body, by simp [taken], ?_⟩
    rw [List.cons_append, splitString.eq_4 seen c _ notQuote ?_, same]
    rintro d more rfl split
    cases rest with
    | nil => simp_all [splitString]
    | cons e after => exact notEscape e after rfl rfl

private theorem splitBlock_shorter (seen rest : List Char) (c : Char) :
    (splitBlock seen (c :: rest)).2.length ≤ rest.length := by
  have bound := splitBlock_length (c :: seen) rest
  unfold splitBlock
  split <;> simp_all

private theorem splitBlock_swap (seen text other : List Char)
    (ends : (splitBlock seen text).2 = [] → other = []) :
    ∃ body, (splitBlock seen text).1 = seen.reverse ++ body ∧
      splitBlock seen (body ++ other) = ((splitBlock seen text).1, other) := by
  fun_induction splitBlock seen text with
  | case1 seen =>
    obtain rfl := ends rfl
    exact ⟨[], by simp, rfl⟩
  | case2 seen rest => exact ⟨['|', ';'], by simp, rfl⟩
  | case3 seen c rest notClosed ih =>
    obtain ⟨body, taken, same⟩ := ih ends
    refine ⟨c :: body, by simp [taken], ?_⟩
    rw [List.cons_append, splitBlock.eq_3 seen c _ ?_, same]
    rintro more rfl front
    cases body with
    | nil =>
      -- Nothing would be taken from a rest that is not empty.
      have shorter := splitBlock_shorter ('|' :: seen) more ';'
      rw [← front, same] at shorter
      rw [List.nil_append] at front
      dsimp only at shorter
      rw [front, List.length_cons] at shorter
      omega
    | cons d body =>
      have joined := splitBlock_append ('|' :: seen) rest
      rw [taken, List.append_assoc] at joined
      have whole := List.append_cancel_left joined
      rw [List.cons_append] at front whole
      exact notClosed _ rfl (by rw [← whole, (List.cons.inj front).1])

structure Follows (kind : TokenKind) (after other : List Char) : Prop where
  ends : after = [] → other = []
  delimits : kind = .bare → ∀ d, other.head? = some d → isDelimiter d = true
  breaks : kind = .lineComment → ∀ d, other.head? = some d → isLineBreak d = true

theorem takeWhile_swap (test : Char → Bool) (text other : List Char)
    (stops : ∀ d, other.head? = some d → test d = true) :
    (text.takeWhile (!test ·) ++ other).takeWhile (!test ·) = text.takeWhile (!test ·) ∧
      (text.takeWhile (!test ·) ++ other).dropWhile (!test ·) = other := by
  have passes : ∀ c ∈ text.takeWhile (!test ·), (!test c) = true := by
    intro c member
    exact List.mem_takeWhile_imp (p := (!test ·)) member
  rw [List.takeWhile_append_of_pos passes, List.dropWhile_append_of_pos passes]
  cases other with
  | nil => simp
  | cons d more => simp [stops d rfl]

theorem splitComment_line (rest : List Char) (notBar : rest.head? ≠ some '|') :
    splitComment rest = (⟨.lineComment, ';' :: rest.takeWhile (!isLineBreak ·)⟩,
      rest.dropWhile (!isLineBreak ·)) := by
  apply splitComment.eq_2
  rintro more rfl
  exact notBar rfl

private theorem splitComment_swap (rest other : List Char)
    (follows : Follows (splitComment rest).1.kind (splitComment rest).2 other) :
    ∃ body, (splitComment rest).1.text = ';' :: body ∧
      splitComment (body ++ other) = ((splitComment rest).1, other) := by
  by_cases bar : rest.head? = some '|'
  · obtain ⟨more, rfl⟩ := List.head?_eq_some_iff.mp bar
    obtain ⟨body, taken, same⟩ := splitBlock_swap [] ('|' :: more) other follows.ends
    obtain ⟨inside, opened⟩ := Grammar.splitBlock_bar more
    rw [List.reverse_nil, List.nil_append] at taken
    refine ⟨body, congrArg (';' :: ·) taken, ?_⟩
    rw [taken] at opened
    rw [opened, List.cons_append] at same ⊢
    rw [splitComment, splitComment, same]
  · rw [splitComment_line rest bar] at follows ⊢
    have breaks := follows.breaks rfl
    obtain ⟨taken, left⟩ := takeWhile_swap isLineBreak rest other breaks
    refine ⟨rest.takeWhile (!isLineBreak ·), rfl, ?_⟩
    rw [splitComment_line, taken, left]
    -- The first character is still that of the comment, or else ends it.
    rw [List.head?_append]
    intro front
    cases rest with
    | nil => exact absurd (breaks '|' front) (by decide)
    | cons d after =>
      by_cases stops : isLineBreak d = true
      · exact absurd (breaks '|' (by simpa [stops] using front)) (by decide)
      · exact bar (by simpa [stops] using front)

theorem split_swap (c : Char) (rest other : List Char)
    (follows : Follows (split c rest).1.kind (split c rest).2 other) :
    ∃ body, (split c rest).1.text = c :: body ∧
      split c (body ++ other) = ((split c rest).1, other) := by
  unfold split at follows ⊢
  split_ifs at follows ⊢ with left right quote string comment
  · exact ⟨[], rfl, rfl⟩
  · exact ⟨[], rfl, rfl⟩
  · exact ⟨[], rfl, rfl⟩
  · obtain ⟨body, taken, same⟩ := splitString_swap [] rest other follows.ends
    exact ⟨body, by simpa using taken, by simp [same]⟩
  · rw [comment]
    exact splitComment_swap rest other follows
  · obtain ⟨taken, left⟩ := takeWhile_swap isDelimiter rest other (follows.delimits rfl)
    exact ⟨rest.takeWhile (!isDelimiter ·), rfl, by simp [taken, left]⟩

theorem split_bare (c : Char) (rest : List Char) (bare : (split c rest).1.kind = .bare) (d : Char)
    (first : (split c rest).2.head? = some d) : isDelimiter d = true := by
  unfold split splitComment at bare first
  split_ifs at bare first with left right quote string comment
  · split at bare <;> cases bare
  · exact Grammar.head_dropWhile isDelimiter rest d first

theorem split_lineComment (c : Char) (rest : List Char)
    (line : (split c rest).1.kind = .lineComment) : '\n' ∉ (split c rest).1.text ∧
      ∀ d, (split c rest).2.head? = some d → isLineBreak d = true := by
  unfold split splitComment at line ⊢
  split_ifs at line ⊢ with left right quote string comment
  split at line
  · cases line
  · constructor
    · intro feed
      rcases List.mem_cons.mp feed with same | inside
      · cases same
      · have passes := List.mem_takeWhile_imp inside
        cases passes
    · exact Grammar.head_dropWhile isLineBreak _

end Token

private theorem respace_line_break (ending : LineEnding) (gap : List Char) (feed : '\n' ∈ gap) :
    ∃ d more, respace ending gap = d :: more ∧ Token.isLineBreak d = true := by
  obtain ⟨n, -, written⟩ := respace_feeds ending gap feed
  rw [written, List.replicate_succ]
  cases ending with
  | lf => exact ⟨'\n', _, rfl, by decide⟩
  | crlf => exact ⟨'\r', _, rfl, by decide⟩

theorem respace_eq_nil_iff (ending : LineEnding) (gap : List Char) :
    respace ending gap = [] ↔ gap = [] := by
  by_cases feed : '\n' ∈ gap
  · obtain ⟨d, more, written, -⟩ := respace_line_break ending gap feed
    apply iff_of_false
    · simp [written]
    · exact List.ne_nil_of_mem feed
  · rw [respace_flat ending gap feed, List.replicate_eq_nil_iff, List.length_eq_zero_iff]

namespace Lexeme

def respaced (ending : LineEnding) (lexeme : Lexeme) : Lexeme :=
  ⟨respace ending lexeme.gap, lexeme.token⟩

/-- A line feed stands between the two if the first one is a line comment. -/
def Breaks (lexeme next : Lexeme) : Prop :=
  lexeme.token.kind = .lineComment → '\n' ∈ next.gap

end Lexeme

def written (ending : LineEnding) (lexemes : List Lexeme) : List Char :=
  interleave (lexemes.map (respace ending ·.gap)) (lexemes.map (·.token.text))

private theorem written_break {lexeme : Lexeme} {lexemes : List Lexeme} {ending : LineEnding}
    {d : Char}
    (breaks : ∀ next ∈ lexemes.head?, lexeme.Breaks next) (line : lexeme.token.kind = .lineComment)
    (first : (written ending lexemes).head? = some d) : Token.isLineBreak d = true := by
  cases lexemes with
  | nil => simp [written, interleave] at first
  | cons next rest =>
    obtain ⟨b, more, spaced, lineBreak⟩ :=
      respace_line_break ending next.gap (breaks next rfl line)
    obtain rfl : b = d := by simpa [written, interleave, spaced] using first
    exact lineBreak

namespace Lexes

variable {text tail : List Char} {lexemes : List Lexeme}

theorem unique (lexes : Lexes text lexemes tail) {others : List Lexeme} {rest : List Char}
    (other : Lexes text others rest) : lexemes = others := by
  induction lexes generalizing others rest with
  | blank tail blanks =>
    cases other with
    | blank => rfl
    | token gap c after =>
      have filled := blanks c (by simp)
      simp_all
  | token gap c after lexemes tail blanks start more ih =>
    generalize whole : gap ++ c :: after = text at other
    cases other with
    | blank _ others =>
      have filled := others c (by simp [← whole])
      simp_all
    | token otherGap d otherAfter others rest otherBlanks otherStart otherMore =>
      obtain ⟨rfl, rfl, rfl⟩ := front_unique blanks start otherBlanks otherStart whole
      rw [ih otherMore]

private theorem written_head (lexes : Lexes text lexemes tail) (ending : LineEnding)
    (delimits : ∀ d, text.head? = some d → Token.isDelimiter d = true) (d : Char)
    (first : (written ending lexemes).head? = some d) : Token.isDelimiter d = true := by
  cases lexes with
  | blank => simp [written, interleave] at first
  | token gap c rest lexemes tail blanks start more =>
    obtain ⟨others, whole⟩ := Token.split_text c rest
    simp only [written, List.map_cons, interleave, whole] at first
    by_cases touching : gap = []
    · apply delimits
      rw [(respace_eq_nil_iff ending gap).mpr touching] at first
      simpa [touching] using first
    · obtain ⟨b, others, spaced⟩ := List.exists_cons_of_ne_nil
        (mt (respace_eq_nil_iff ending gap).mp touching)
      obtain rfl : b = d := by simpa [spaced] using first
      exact Grammar.delimiter_of_blank (respace_blank ending gap b (by simp [spaced]))

theorem of_nil (lexes : Lexes [] lexemes tail) : lexemes = [] :=
  lexes.unique (.blank [] (by simp))

theorem tail_nil (lexes : Lexes [] lexemes tail) : tail = [] :=
  (List.append_eq_nil_iff.mp lexes.joined.symm).2

private theorem rewritten (lexes : Lexes text lexemes tail) (ending : LineEnding)
    (broken : lexemes.IsChain Lexeme.Breaks) :
    Lexes (written ending lexemes) (lexemes.map (Lexeme.respaced ending)) [] := by
  induction lexes with
  | blank => exact .blank [] (by simp)
  | token gap c rest lexemes tail blanks start more ih =>
    obtain ⟨next, behind⟩ := List.isChain_cons.mp broken
    have follows : Token.Follows (Token.split c rest).1.kind (Token.split c rest).2
        (written ending lexemes) := by
      refine ⟨?_, ?_, ?_⟩
      · intro finished
        rw [finished] at more
        rw [more.of_nil]
        rfl
      · intro bare
        exact more.written_head ending (Token.split_bare c rest bare)
      · intro line d first
        exact written_break next line first
    obtain ⟨body, whole, same⟩ := Token.split_swap c rest _ follows
    have step := Lexes.token (respace ending gap) c (body ++ written ending lexemes)
      (lexemes.map (Lexeme.respaced ending)) [] (respace_blank ending gap) start
      (by rw [same]; exact ih behind)
    rw [same] at step
    simpa [written, interleave, whole, Lexeme.respaced] using step

private theorem lineComments (lexes : Lexes text lexemes tail) :
    (∀ lexeme ∈ lexemes, lexeme.token.kind = .lineComment → '\n' ∉ lexeme.token.text) ∧
      lexemes.IsChain fun lexeme next => lexeme.token.kind = .lineComment →
        ∃ d more, next.gap = d :: more ∧ Token.isLineBreak d = true := by
  induction lexes with
  | blank => exact ⟨by simp, .nil⟩
  | token gap c rest lexemes tail blanks start more ih =>
    obtain ⟨single, chain⟩ := ih
    constructor
    · intro lexeme member line
      rcases List.mem_cons.mp member with rfl | later
      · exact (Token.split_lineComment c rest line).1
      · exact single lexeme later line
    · rw [List.isChain_cons]
      refine ⟨?_, chain⟩
      intro next first line
      have stops := (Token.split_lineComment c rest line).2
      generalize (Token.split c rest).2 = after at more stops
      cases more with
      | blank => simp at first
      | token follow d rest lexemes tail followBlanks followStart more =>
        obtain rfl := Option.some.inj first
        cases follow with
        | nil =>
          -- A line break is blank, so the gap before a token holds it.
          have lineBreak := stops d rfl
          simp only [Token.isLineBreak, Bool.or_eq_true, beq_iff_eq] at lineBreak
          rcases lineBreak with rfl | rfl <;> exact absurd followStart (by decide)
        | cons b follow => exact ⟨b, follow, rfl, stops b rfl⟩

end Lexes

theorem isChain_breaks_iff (lexemes : List Lexeme) : lexemes.IsChain Lexeme.Breaks ↔
    ∀ i next, Nesting.kind? lexemes i = some .lineComment → lexemes[i + 1]? = some next →
      '\n' ∈ next.gap := by
  rw [List.isChain_iff_getElem]
  constructor
  · intro chain i next line found
    obtain ⟨bound, rfl⟩ := List.getElem?_eq_some_iff.mp found
    have here := List.getElem?_eq_getElem (Nat.lt_of_succ_lt bound)
    rw [Nesting.kind?, here] at line
    exact chain i bound (Option.some.inj line)
  · intro feeds i bound line
    apply feeds i
    · rw [Nesting.kind?, List.getElem?_eq_getElem (Nat.lt_of_succ_lt bound), Option.map_some, line]
    · exact List.getElem?_eq_getElem bound

private theorem atomsFrom_respaced (ending : LineEnding) (index : Nat) (start : Position)
    (lexemes : List Lexeme) :
    atomsFrom index start (lexemes.map (Lexeme.respaced ending)) =
      atomsFrom index start lexemes := by
  induction lexemes generalizing index start with
  | nil => rfl
  | cons lexeme rest ih =>
    simp only [List.map_cons, atomsFrom, Lexeme.respaced, advance_respace]
    rw [ih]

section Build

variable (native : String → Bool) (text : String)

private theorem toText_written : (Document.build native text).toText.toList =
    written (.detect text.toList) (Lexing.ofText text.toList).lexemes := by
  rw [build_toText, build_words, String.toList_ofList]
  rfl

private theorem build_reread (broken : (Lexing.ofText text.toList).lexemes.IsChain Lexeme.Breaks) :
    (Lexing.ofText (Document.build native text).toText.toList).lexemes =
      (Lexing.ofText text.toList).lexemes.map (Lexeme.respaced (.detect text.toList)) := by
  rw [toText_written]
  exact (Lexing.ofText_lexes _).unique ((Lexing.ofText_lexes text.toList).rewritten _ broken)

private theorem build_respaced (other : String) (ending : LineEnding)
    (same : (Lexing.ofText other.toList).lexemes =
      (Lexing.ofText text.toList).lexemes.map (Lexeme.respaced ending)) :
    (Document.build native other).atoms = (Document.build native text).atoms ∧
      (Document.build native other).root = (Document.build native text).root ∧
      (Document.build native other).symbols = (Document.build native text).symbols := by
  have atoms : (Document.build native other).atoms = (Document.build native text).atoms := by
    apply Array.toList_inj.mp
    rw [build_atoms, build_atoms, same, atomsFrom_respaced]
  refine ⟨atoms, ?_, congrArg (SymbolTable.ofAtoms native) atoms⟩
  change Form.ofLexemes _ = Form.ofLexemes _
  rw [same, Form.ofLexemes_map (f := Lexeme.respaced ending) (fun _ => rfl)]
  exact fun lexeme => respace_eq_nil_iff ending lexeme.gap

private theorem build_lineComment (i : Nat) :
    (Document.build native text).Passes Atom.isLineComment i ↔
    Nesting.kind? (Lexing.ofText text.toList).lexemes i = some .lineComment :=
  build_passes native text _ _ i fun _ _ kind => kind.2.2.2.2.2

private theorem build_gaps
    (same : (Document.build native (Document.build native text).toText).atoms =
      (Document.build native text).atoms) :
    (Lexing.ofText (Document.build native text).toText.toList).lexemes.map Lexeme.gap =
      (Lexing.ofText text.toList).lexemes.map (respace (.detect text.toList) ·.gap) := by
  have spaced := build_spaced native (Document.build native text).toText
  have words : (Document.build native (Document.build native text).toText).words =
      (Document.build native text).words := by rw [Document.words, same, Document.words]
  have joined := spaced.joined
  rw [words] at joined
  have text_eq := congrArg String.toList (build_toText native text)
  rw [String.toList_ofList] at text_eq
  refine (interleave_unique (build_starts native text) ?_ ?_ ?_ ?_
    (joined.symm.trans (text_eq.trans (List.append_nil _).symm))).1
  · rw [spaced.count, words]
  · rw [build_words, List.length_map, List.length_map]
  · exact fun gap member => spaced.blank gap (by simp [member])
  · intro gap member
    obtain ⟨lexeme, -, rfl⟩ := List.mem_map.mp member
    exact respace_blank _ _

private theorem breaks_of_reread
    (same : (Document.build native (Document.build native text).toText).atoms =
      (Document.build native text).atoms) :
    (Lexing.ofText text.toList).lexemes.IsChain Lexeme.Breaks := by
  rw [isChain_breaks_iff]
  intro i next line found
  have passes := (build_lineComment native text i).mpr line
  have again : Nesting.kind? (Lexing.ofText (Document.build native text).toText.toList).lexemes i =
      some .lineComment := by
    rw [← build_lineComment native, Document.Passes, same]
    exact passes
  have gap := congrArg (·[i + 1]?) (build_gaps native text same)
  simp only [List.getElem?_map, found, Option.map_some] at gap
  obtain ⟨other, here, spaced⟩ := Option.map_eq_some_iff.mp gap
  have chain := List.isChain_iff_getElem.mp
    (Lexing.ofText_lexes (Document.build native text).toText.toList).lineComments.2
  obtain ⟨bound, rfl⟩ := List.getElem?_eq_some_iff.mp here
  rw [Nesting.kind?, List.getElem?_eq_getElem (Nat.lt_of_succ_lt bound)] at again
  obtain ⟨d, more, first, lineBreak⟩ := chain i bound (Option.some.inj again)
  rw [spaced] at first
  by_contra flat
  rw [respace_flat _ _ flat] at first
  have space : d = ' ' := List.eq_of_mem_replicate (by rw [first]; exact List.mem_cons_self ..)
  rw [space] at lineBreak
  exact absurd lineBreak (by decide)

private theorem build_line_feed (i : Nat) (a b : Atom)
    (first : (Document.build native text).atoms[i]? = some a)
    (second : (Document.build native text).atoms[i + 1]? = some b) (line : a.isLineComment = true) :
    ∃ next, (Lexing.ofText text.toList).lexemes[i + 1]? = some next ∧
      ('\n' ∈ next.gap ↔ a.line < b.line) := by
  have comment := (build_lineComment native text i).mp ⟨a, first, line⟩
  obtain ⟨lexeme, here, kind⟩ := Option.map_eq_some_iff.mp comment
  have word := congrArg (·[i]?) (build_words native text)
  rw [← Array.getElem?_toList] at first second
  simp only [Document.words, List.getElem?_map, first, here, Option.map_some] at word
  have single :=
    (Lexing.ofText_lexes text.toList).lineComments.1 lexeme (List.mem_of_getElem? here) kind
  rw [← Option.some.inj word] at single
  rw [build_atoms] at first second
  obtain ⟨next, found, start⟩ := atomsFrom_next 0 .origin _ i a b first second
  refine ⟨next, found, ?_⟩
  have stop : a.stop.line = a.line := by
    rw [Atom.stop, Position.advance_eq, List.count_eq_zero_of_not_mem single]
    rfl
  have below : b.line = a.line + next.gap.count '\n' := by
    rw [Atom.line, start, Position.advance_eq, stop]
  rw [below, ← List.count_pos_iff]
  omega

theorem build_breaks_iff : (Lexing.ofText text.toList).lexemes.IsChain Lexeme.Breaks ↔
    ∀ i a b, (Document.build native text).atoms[i]? = some a →
      (Document.build native text).atoms[i + 1]? = some b → a.isLineComment = true →
      a.line < b.line := by
  rw [isChain_breaks_iff]
  constructor
  · intro feeds i a b first second line
    obtain ⟨next, found, feed⟩ := build_line_feed native text i a b first second line
    exact feed.mp (feeds i next ((build_lineComment native text i).mp ⟨a, first, line⟩) found)
  · intro later i next line found
    obtain ⟨a, first, comment⟩ := (build_lineComment native text i).mpr line
    have bound := (List.getElem?_eq_some_iff.mp found).1
    rw [← build_size native text] at bound
    have second := Array.getElem?_eq_getElem bound
    obtain ⟨other, here, feed⟩ := build_line_feed native text i a _ first second comment
    obtain rfl := Option.some.inj (here.symm.trans found)
    exact feed.mpr (later i a _ first second comment)

end Build

/-- A written text is read again as the same document exactly if a line ends behind every line
comment that is not the last atom. -/
theorem reread_iff (native : String → Bool) (text : String) :
    ((Document.build native (Document.build native text).toText).atoms =
        (Document.build native text).atoms ∧
      (Document.build native (Document.build native text).toText).root =
        (Document.build native text).root ∧
      (Document.build native (Document.build native text).toText).symbols =
        (Document.build native text).symbols) ↔
    ∀ i a b, (Document.build native text).atoms[i]? = some a →
      (Document.build native text).atoms[i + 1]? = some b → a.isLineComment = true →
      a.line < b.line := by
  rw [← build_breaks_iff]
  constructor
  · intro same
    exact breaks_of_reread native text same.1
  · intro broken
    exact build_respaced native text _ _ (build_reread native text broken)

end LispIndex
