import LispIndex.Proofs.Placement

/-!
The text written back from a document. It has the atoms of the text in their order, and each gap of
blanks is written in a form that depends on that gap and on the line ending alone.
-/

namespace LispIndex

def interleave : List (List Char) → List (List Char) → List Char
  | gap :: gaps, word :: words => gap ++ word ++ interleave gaps words
  | _, _ => []

/-- How a gap is written: a line ending for every line feed, then a space for every character behind
the last one. -/
def respace (ending : LineEnding) (gap : List Char) : List Char :=
  (List.replicate (gap.count '\n') ending.chars).flatten ++
    List.replicate (gap.reverse.takeWhile (· != '\n')).length ' '

namespace Document

def words (d : Document) : List (List Char) :=
  d.atoms.toList.map (·.symbol.toList)

/-- The text is the atoms of the document, each behind a gap of blanks, and a last gap. -/
structure Spaced (d : Document) (text : List Char) (gaps : List (List Char)) (tail : List Char) :
    Prop where
  count : gaps.length = d.words.length
  blank : ∀ gap ∈ tail :: gaps, ∀ c ∈ gap, Text.isBlank c = true
  joined : text = interleave gaps d.words ++ tail

end Document

theorem LineEnding.detect_eq_crlf_iff (text : List Char) :
    detect text = .crlf ↔ ['\r', '\n'] <:+: text := by
  fun_induction detect text with
  | case1 rest => exact iff_of_true rfl ⟨[], rest, rfl⟩
  | case2 c rest other ih =>
    rw [ih, List.infix_cons_iff]
    constructor
    · exact Or.inr
    · rintro (⟨more, front⟩ | inside)
      · obtain ⟨rfl, rfl⟩ := List.cons.inj front
        exact (other more rfl rfl).elim
      · exact inside
  | case3 => simp

namespace Position

theorem advance_eq (p : Position) (text : List Char) : p.advance text =
    ⟨p.line + text.count '\n', if '\n' ∈ text then (text.reverse.takeWhile (· != '\n')).length
      else p.character + text.length⟩ := by
  induction text using List.reverseRecOn with
  | nil => simp [advance]
  | append_singleton before c ih =>
    rw [advance_append, ih]
    by_cases feed : c = '\n'
    · simp [advance, step, feed, Nat.add_assoc]
    · by_cases earlier : '\n' ∈ before <;>
        simp [advance, step, feed, Ne.symm feed, earlier, Nat.add_assoc]

private theorem advance_endings (p : Position) (ending : LineEnding) (n : Nat) :
    p.advance (List.replicate (n + 1) ending.chars).flatten = ⟨p.line + (n + 1), 0⟩ := by
  have one (q : Position) : q.advance ending.chars = ⟨q.line + 1, 0⟩ := by cases ending <;> rfl
  induction n generalizing p with
  | zero => simp [one]
  | succ n ih =>
    rw [List.replicate_succ, List.flatten_cons, advance_append, one, ih]
    simp only [mk.injEq, and_true]
    omega

private theorem advance_spaces (p : Position) (n : Nat) :
    p.advance (List.replicate n ' ') = ⟨p.line, p.character + n⟩ := by
  have noFeed : '\n' ∉ List.replicate n ' ' := by simp
  rw [advance_eq, if_neg noFeed, List.count_eq_zero_of_not_mem noFeed, List.length_replicate]
  rfl

end Position

theorem respace_feeds (ending : LineEnding) (gap : List Char) (feed : '\n' ∈ gap) :
    ∃ n, gap.count '\n' = n + 1 ∧ respace ending gap =
      (List.replicate (n + 1) ending.chars).flatten ++
        List.replicate (gap.reverse.takeWhile (· != '\n')).length ' ' := by
  obtain ⟨n, count⟩ := Nat.exists_eq_add_one.mpr (List.count_pos_iff.mpr feed)
  exact ⟨n, count, by rw [respace, count]⟩

theorem respace_flat (ending : LineEnding) (gap : List Char) (flat : '\n' ∉ gap) :
    respace ending gap = List.replicate gap.length ' ' := by
  have whole : gap.reverse.takeWhile (· != '\n') = gap.reverse := by
    rw [List.takeWhile_eq_self_iff]
    intro c member
    simpa using fun same => flat (by rw [← same]; exact List.mem_reverse.mp member)
  rw [respace, List.count_eq_zero_of_not_mem flat, whole, List.length_reverse]
  rfl

/-- A gap as it is written leads to the place that the gap leads to. -/
theorem advance_respace (p : Position) (ending : LineEnding) (gap : List Char) :
    p.advance (respace ending gap) = p.advance gap := by
  by_cases feed : '\n' ∈ gap
  · obtain ⟨n, count, written⟩ := respace_feeds ending gap feed
    rw [written, Position.advance_append, Position.advance_endings, Position.advance_spaces,
      Position.advance_eq p gap, if_pos feed, count, Nat.zero_add]
  · rw [respace_flat ending gap feed, Position.advance_spaces, Position.advance_eq p gap,
      if_neg feed, List.count_eq_zero_of_not_mem feed]
    rfl

private theorem padding_advance (ending : LineEnding) (here : Position) (gap : List Char) :
    Document.padding ending here (here.advance gap) = respace ending gap := by
  rw [Document.padding, Position.advance_eq]
  by_cases feed : '\n' ∈ gap
  · have later : here.line < here.line + gap.count '\n' :=
      Nat.lt_add_of_pos_right (List.count_pos_iff.mpr feed)
    rw [if_pos feed, if_pos later, Nat.add_sub_cancel_left, Nat.sub_zero]
    rfl
  · rw [if_neg feed, List.count_eq_zero_of_not_mem feed, respace_flat ending gap feed, Nat.add_zero,
      if_neg (Nat.lt_irrefl _), Nat.sub_self, Nat.add_sub_cancel_left]
    rfl

theorem respace_blank (ending : LineEnding) (gap : List Char) :
    ∀ c ∈ respace ending gap, Text.isBlank c = true := by
  intro c member
  have chars : ending.chars.all Text.isBlank = true := by cases ending <;> rfl
  rcases List.mem_append.mp member with inside | space
  · obtain ⟨part, repeated, inPart⟩ := List.mem_flatten.mp inside
    rw [List.eq_of_mem_replicate repeated] at inPart
    exact List.all_eq_true.mp chars c inPart
  · rw [List.eq_of_mem_replicate space]
    decide

def StartsWord (word : List Char) : Prop :=
  ∃ c more, word = c :: more ∧ Text.isBlank c = false

theorem front_unique {gap other rest after : List Char} {c d : Char}
    (blank : ∀ b ∈ gap, Text.isBlank b = true) (start : Text.isBlank c = false)
    (otherBlank : ∀ b ∈ other, Text.isBlank b = true) (otherStart : Text.isBlank d = false)
    (same : gap ++ c :: rest = other ++ d :: after) : gap = other ∧ c = d ∧ rest = after := by
  have front (front rest : List Char) (c : Char) (blanks : ∀ b ∈ front, Text.isBlank b = true)
      (start : Text.isBlank c = false) : (front ++ c :: rest).takeWhile Text.isBlank = front := by
    rw [List.takeWhile_append_of_pos blanks, List.takeWhile_cons_of_neg (by simp [start]),
      List.append_nil]
  have gaps : gap = other := by
    rw [← front gap rest c blank start, same, front other after d otherBlank otherStart]
  rw [gaps] at same
  exact ⟨gaps, List.cons.inj (List.append_cancel_left same)⟩

/-- Blanks and words of a text determine each other. -/
theorem interleave_unique {words gaps others : List (List Char)} {tail rest : List Char}
    (starts : ∀ word ∈ words, StartsWord word)
    (count : gaps.length = words.length) (otherCount : others.length = words.length)
    (blank : ∀ gap ∈ gaps, ∀ c ∈ gap, Text.isBlank c = true)
    (otherBlank : ∀ gap ∈ others, ∀ c ∈ gap, Text.isBlank c = true)
    (same : interleave gaps words ++ tail = interleave others words ++ rest) :
    gaps = others ∧ tail = rest := by
  induction words generalizing gaps others with
  | nil =>
    obtain rfl := List.eq_nil_of_length_eq_zero count
    obtain rfl := List.eq_nil_of_length_eq_zero otherCount
    exact ⟨rfl, same⟩
  | cons word words ih =>
    obtain ⟨gap, gaps, rfl⟩ := List.exists_cons_of_length_eq_add_one count
    obtain ⟨other, others, rfl⟩ := List.exists_cons_of_length_eq_add_one otherCount
    obtain ⟨c, more, rfl, start⟩ := starts word (by simp)
    simp only [interleave, List.append_assoc, List.cons_append] at same
    obtain ⟨rfl, -, behind⟩ := front_unique (blank gap (by simp)) start (otherBlank other (by simp))
      start same
    obtain ⟨rfl, rfl⟩ := ih (fun w member => starts w (by simp [member])) (by simpa using count)
      (by simpa using otherCount) (fun g member => blank g (by simp [member]))
      (fun g member => otherBlank g (by simp [member])) (List.append_cancel_left behind)
    exact ⟨rfl, rfl⟩

private theorem atomsFrom_words (index : Nat) (start : Position) (lexemes : List Lexeme) :
    (atomsFrom index start lexemes).map (·.symbol.toList) = lexemes.map (·.token.text) := by
  induction lexemes generalizing index start with
  | nil => rfl
  | cons lexeme rest ih => simp [atomsFrom, ih]

private theorem atomsFrom_written (ending : LineEnding) (index : Nat) (start : Position)
    (lexemes : List Lexeme) :
    (((start :: (atomsFrom index start lexemes).map Atom.stop).zip
      (atomsFrom index start lexemes)).flatMap fun (here, a) =>
        Document.padding ending here a.start ++ a.symbol.toList) =
      interleave (lexemes.map (respace ending ·.gap)) (lexemes.map (·.token.text)) := by
  induction lexemes generalizing index start with
  | nil => rfl
  | cons lexeme rest ih =>
    have next := ih (index + 1) ((start.advance lexeme.gap).advance lexeme.token.text)
    simp only [atomsFrom, List.map_cons, List.zip_cons_cons, List.flatMap_cons, interleave,
      Atom.stop, String.toList_ofList, padding_advance] at next ⊢
    rw [next]

namespace Lexes

variable {text tail : List Char} {lexemes : List Lexeme}

theorem joined (lexes : Lexes text lexemes tail) :
    text = interleave (lexemes.map Lexeme.gap) (lexemes.map (·.token.text)) ++ tail := by
  induction lexes with
  | blank => rfl
  | token gap c rest lexemes tail blanks start more ih =>
    simp only [List.map_cons, interleave, List.append_assoc]
    rw [← ih, Token.split_append]

theorem blanks (lexes : Lexes text lexemes tail) :
    ∀ gap ∈ tail :: lexemes.map Lexeme.gap, ∀ c ∈ gap, Text.isBlank c = true := by
  induction lexes with
  | blank tail blanks => simpa using blanks
  | token gap c rest lexemes tail blanks start more ih =>
    intro other member
    simp only [List.map_cons, List.mem_cons] at member ih
    rcases member with last | rfl | later
    · exact ih other (.inl last)
    · exact blanks
    · exact ih other (.inr later)

theorem starts (lexes : Lexes text lexemes tail) :
    ∀ word ∈ lexemes.map (·.token.text), StartsWord word := by
  induction lexes with
  | blank => simp
  | token gap c rest lexemes tail blanks start more ih =>
    obtain ⟨others, whole⟩ := Token.split_text c rest
    intro word member
    rcases List.mem_cons.mp member with rfl | later
    · exact ⟨c, others, whole, start⟩
    · exact ih word later

end Lexes

section Build

variable (native : String → Bool) (text : String)

theorem build_words : (Document.build native text).words =
    (Lexing.ofText text.toList).lexemes.map (·.token.text) := by
  rw [Document.words, build_atoms, atomsFrom_words]

theorem build_toText : (Document.build native text).toText = String.ofList
    (interleave ((Lexing.ofText text.toList).lexemes.map (respace (.detect text.toList) ·.gap))
      (Document.build native text).words) := by
  rw [build_words, Document.toText, build_atoms]
  exact congrArg String.ofList (atomsFrom_written _ 0 .origin _)

theorem build_spaced : (Document.build native text).Spaced text.toList
    ((Lexing.ofText text.toList).lexemes.map Lexeme.gap) (Lexing.ofText text.toList).tail where
  count := by simp [build_words]
  blank := (Lexing.ofText_lexes text.toList).blanks
  joined := by
    rw [build_words]
    exact (Lexing.ofText_lexes text.toList).joined

theorem build_starts : ∀ word ∈ (Document.build native text).words, StartsWord word := by
  rw [build_words]
  exact (Lexing.ofText_lexes text.toList).starts

variable {native text}

theorem Document.Spaced.unique {gaps others : List (List Char)} {tail rest : List Char}
    (first : (Document.build native text).Spaced text.toList gaps tail)
    (second : (Document.build native text).Spaced text.toList others rest) :
    others = gaps ∧ rest = tail :=
  interleave_unique (build_starts native text) second.count first.count
    (fun gap member => second.blank gap (by simp [member]))
    (fun gap member => first.blank gap (by simp [member])) (second.joined.symm.trans first.joined)

theorem Document.Spaced.rewritten_iff {gaps : List (List Char)} {tail : List Char}
    (spaced : (Document.build native text).Spaced text.toList gaps tail) (ending : LineEnding) :
    interleave (gaps.map (respace ending)) (Document.build native text).words = text.toList ↔
      tail = [] ∧ ∀ gap ∈ gaps, respace ending gap = gap := by
  have blank : ∀ gap ∈ gaps.map (respace ending), ∀ c ∈ gap, Text.isBlank c = true := by
    intro written member
    obtain ⟨gap, -, rfl⟩ := List.mem_map.mp member
    exact respace_blank ending gap
  constructor
  · intro same
    rw [← List.append_nil (interleave _ _), spaced.joined] at same
    obtain ⟨gaps_eq, tail_eq⟩ := interleave_unique (build_starts native text)
      (by rw [List.length_map, spaced.count]) spaced.count blank
      (fun gap member => spaced.blank gap (by simp [member])) same
    exact ⟨tail_eq.symm, List.map_eq_map_iff.mp (gaps_eq.trans (List.map_id gaps).symm)⟩
  · rintro ⟨rfl, kept⟩
    rw [List.map_congr_left kept, List.map_id', spaced.joined, List.append_nil]

end Build

/-- Writing back keeps the atoms and writes every gap anew, whatever text the document is of; the
text comes back exactly if each of its gaps is in written form and nothing is behind the last
atom. -/
theorem toText_respaced (native : String → Bool) (text : String) :
    ∃ gaps tail, (Document.build native text).Spaced text.toList gaps tail ∧
      (∀ others rest, (Document.build native text).Spaced text.toList others rest →
        others = gaps ∧ rest = tail) ∧
      ((Document.build native text).lineEnding = .crlf ↔ ['\r', '\n'] <:+: text.toList) ∧
      (Document.build native text).toText = String.ofList
        (interleave (gaps.map (respace (Document.build native text).lineEnding))
          (Document.build native text).words) ∧
      ((Document.build native text).toText = text ↔
        tail = [] ∧ ∀ gap ∈ gaps, respace (Document.build native text).lineEnding gap = gap) := by
  have spaced := build_spaced native text
  have written := build_toText native text
  rw [← Function.comp_def (respace _), ← List.map_map] at written
  refine ⟨_, _, spaced, fun _ _ => spaced.unique, LineEnding.detect_eq_crlf_iff _, written, ?_⟩
  rw [written, ← String.toList_inj, String.toList_ofList]
  exact spaced.rewritten_iff _

end LispIndex
