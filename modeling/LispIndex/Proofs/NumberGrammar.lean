import LispIndex.Proofs.NumberReading
import Mathlib.Computability.RegularExpressions

/-!
The grammar of numbers. A text is a number exactly if the regular expression
`-?[0-9]+(\.[0-9]+)?([eE][+-]?[0-9]+)?` matches the whole of it: the reading takes as much as it can
for each part, and no other way to divide the text into the parts could succeed where it fails,
because no part begins with a character that could go on the part before it.
-/

namespace LispIndex.Number

open RegularExpression

def oneOf (chars : List Char) : RegularExpression Char :=
  chars.foldr (fun c others => char c + others) 0

def optional (part : RegularExpression Char) : RegularExpression Char :=
  1 + part

def digitRun : RegularExpression Char :=
  oneOf "0123456789".toList * star (oneOf "0123456789".toList)

def fractionPart : RegularExpression Char :=
  optional (oneOf ['.'] * digitRun)

def exponentPart : RegularExpression Char :=
  optional (oneOf ['e', 'E'] * (optional (oneOf ['+', '-']) * digitRun))

/-- `-?[0-9]+(\.[0-9]+)?([eE][+-]?[0-9]+)?` -/
def grammar : RegularExpression Char :=
  optional (oneOf ['-']) * digitRun * fractionPart * exponentPart

section Languages

variable {word : List Char} {part other : RegularExpression Char}

theorem mem_oneOf {chars : List Char} :
    word ∈ (oneOf chars).matches' ↔ ∃ c ∈ chars, word = [c] := by
  induction chars with
  | nil =>
    rw [oneOf, List.foldr_nil, matches'_zero]
    simp [Language.notMem_zero]
  | cons c rest ih =>
    rw [oneOf, List.foldr_cons, matches'_add, Language.mem_add, ← oneOf, ih, matches'_char]
    simp only [List.mem_cons, exists_eq_or_imp]
    exact Iff.rfl

theorem mem_optional : word ∈ (optional part).matches' ↔ word = [] ∨ word ∈ part.matches' := by
  rw [optional, matches'_add, Language.mem_add, matches'_epsilon, Language.mem_one]

private theorem nil_mem_optional : [] ∈ (optional part).matches' :=
  mem_optional.mpr (.inl rfl)

theorem mem_seq : word ∈ (part * other).matches' ↔
    ∃ front ∈ part.matches', ∃ rest ∈ other.matches', front ++ rest = word := by
  rw [matches'_mul, Language.mem_mul]

theorem mem_marked {marks : List Char} : word ∈ (optional (oneOf marks * other)).matches' ↔
    word = [] ∨ ∃ c ∈ marks, ∃ rest ∈ other.matches', c :: rest = word := by
  rw [mem_optional, mem_seq]
  refine or_congr_right ⟨?_, ?_⟩
  · rintro ⟨front, first, rest, later, rfl⟩
    obtain ⟨c, mark, rfl⟩ := mem_oneOf.mp first
    exact ⟨c, mark, rest, later, rfl⟩
  · rintro ⟨c, mark, rest, later, rfl⟩
    exact ⟨[c], mem_oneOf.mpr ⟨c, mark, rfl⟩, rest, later, rfl⟩

private theorem head_of_marked {marks : List Char}
    (matched : word ∈ (optional (oneOf marks * other)).matches') :
    ∀ c ∈ word.head?, c ∈ marks := by
  rcases mem_marked.mp matched with rfl | ⟨c, mark, rest, -, rfl⟩
  · exact nofun
  · intro d head
    rwa [← Option.some.inj head]

theorem mem_star_oneOf {chars : List Char} :
    word ∈ (star (oneOf chars)).matches' ↔ ∀ c ∈ word, c ∈ chars := by
  rw [matches'_star, Language.mem_kstar]
  constructor
  · rintro ⟨pieces, rfl, single⟩ c member
    obtain ⟨piece, listed, inside⟩ := List.mem_flatten.mp member
    obtain ⟨d, known, rfl⟩ := mem_oneOf.mp (single piece listed)
    rwa [List.mem_singleton.mp inside]
  · intro known
    refine ⟨word.map fun c => [c], (List.flatMap_singleton' word).symm, ?_⟩
    intro piece listed
    obtain ⟨c, member, rfl⟩ := List.mem_map.mp listed
    exact mem_oneOf.mpr ⟨c, known c member, rfl⟩

theorem mem_digits_iff {c : Char} : c ∈ "0123456789".toList ↔ c.isDigit = true := by
  change c ∈ ['0', '1', '2', '3', '4', '5', '6', '7', '8', '9'] ↔ _
  rw [isDigit_iff]
  simp only [List.mem_cons, List.not_mem_nil, or_false, ← Char.toNat_inj]
  change c.toNat = 48 ∨ c.toNat = 49 ∨ c.toNat = 50 ∨ c.toNat = 51 ∨ c.toNat = 52 ∨
    c.toNat = 53 ∨ c.toNat = 54 ∨ c.toNat = 55 ∨ c.toNat = 56 ∨ c.toNat = 57 ↔ _
  omega

theorem mem_digitRun :
    word ∈ digitRun.matches' ↔ word ≠ [] ∧ ∀ c ∈ word, c.isDigit = true := by
  rw [digitRun, mem_seq]
  constructor
  · rintro ⟨front, first, rest, later, rfl⟩
    obtain ⟨c, known, rfl⟩ := mem_oneOf.mp first
    refine ⟨List.cons_ne_nil c rest, List.forall_mem_cons.mpr ⟨mem_digits_iff.mp known, ?_⟩⟩
    intro d member
    exact mem_digits_iff.mp (mem_star_oneOf.mp later d member)
  · rintro ⟨filled, run⟩
    obtain ⟨c, rest, rfl⟩ := List.exists_cons_of_ne_nil filled
    obtain ⟨first, later⟩ := List.forall_mem_cons.mp run
    exact ⟨[c], mem_oneOf.mpr ⟨c, mem_digits_iff.mpr first, rfl⟩, rest,
      mem_star_oneOf.mpr fun d member => mem_digits_iff.mpr (later d member), rfl⟩

end Languages

section Taken

/-! What is taken off a text is matched by the part. -/

variable {text rest : List Char}

private theorem digits?_takes (taken : digits? text = some rest) :
    ∃ run ∈ digitRun.matches', run ++ rest = text := by
  cases text with
  | nil => cases taken
  | cons c later =>
    rw [digits?] at taken
    split_ifs at taken with digit
    obtain rfl := Option.some.inj taken
    refine ⟨c :: later.takeWhile Char.isDigit, mem_digitRun.mpr ⟨List.cons_ne_nil _ _, ?_⟩, ?_⟩
    · exact List.forall_mem_cons.mpr ⟨digit, fun d member => List.mem_takeWhile_imp member⟩
    · rw [List.cons_append, List.takeWhile_append_dropWhile]

private theorem dropMark_takes (marks text : List Char) :
    ∃ sign ∈ (optional (oneOf marks)).matches', sign ++ dropMark marks text = text := by
  cases text with
  | nil => exact ⟨[], nil_mem_optional, rfl⟩
  | cons c rest =>
    rw [dropMark]
    split_ifs with mark
    · exact ⟨[c], mem_optional.mpr (.inr (mem_oneOf.mpr ⟨c, mark, rfl⟩)), rfl⟩
    · exact ⟨[], nil_mem_optional, rfl⟩

private theorem fraction?_takes (taken : fraction? text = some rest) :
    ∃ part ∈ fractionPart.matches', part ++ rest = text := by
  cases text with
  | nil =>
    obtain rfl := Option.some.inj taken
    exact ⟨[], nil_mem_optional, rfl⟩
  | cons c later =>
    rw [fraction?] at taken
    split_ifs at taken with point
    · obtain ⟨run, digits, rfl⟩ := digits?_takes taken
      exact ⟨c :: run, mem_marked.mpr (.inr ⟨c, point, run, digits, rfl⟩), rfl⟩
    · obtain rfl := Option.some.inj taken
      exact ⟨[], nil_mem_optional, rfl⟩

private theorem exponent?_takes (taken : exponent? text = some rest) :
    ∃ part ∈ exponentPart.matches', part ++ rest = text := by
  cases text with
  | nil =>
    obtain rfl := Option.some.inj taken
    exact ⟨[], nil_mem_optional, rfl⟩
  | cons c later =>
    rw [exponent?] at taken
    split_ifs at taken with letter
    · obtain ⟨sign, signed, split⟩ := dropMark_takes ['+', '-'] later
      obtain ⟨run, digits, behind⟩ := digits?_takes taken
      have scale := mem_seq.mpr ⟨sign, signed, run, digits, rfl⟩
      refine ⟨c :: (sign ++ run), mem_marked.mpr (.inr ⟨c, letter, _, scale, rfl⟩), ?_⟩
      rw [List.cons_append, List.append_assoc, behind, split]
    · obtain rfl := Option.some.inj taken
      exact ⟨[], nil_mem_optional, rfl⟩

end Taken

section Given

/-! A part that is matched is taken off, if what comes behind it could not be a part of it. -/

variable {rest : List Char}

def Ends (text : List Char) : Prop :=
  ∀ c ∈ text.head?, c.isDigit = false

private theorem digits?_given {run : List Char} (digits : run ∈ digitRun.matches')
    (ends : Ends rest) :
    digits? (run ++ rest) = some rest := by
  obtain ⟨filled, digit⟩ := mem_digitRun.mp digits
  obtain ⟨c, later, rfl⟩ := List.exists_cons_of_ne_nil filled
  obtain ⟨first, others⟩ := List.forall_mem_cons.mp digit
  have stops : rest.dropWhile Char.isDigit = rest := by
    cases rest with
    | nil => rfl
    | cons d tail => rw [List.dropWhile_cons_of_neg (by simp [ends d rfl])]
  rw [List.cons_append, digits?, if_pos first, List.dropWhile_append_of_pos others, stops]

private theorem dropMark_given {marks sign run : List Char}
    (signed : sign ∈ (optional (oneOf marks)).matches') (digits : run ∈ digitRun.matches')
    (apart : ∀ c ∈ marks, c.isDigit = false) :
    dropMark marks (sign ++ (run ++ rest)) = run ++ rest := by
  obtain ⟨filled, digit⟩ := mem_digitRun.mp digits
  obtain ⟨c, later, rfl⟩ := List.exists_cons_of_ne_nil filled
  rcases mem_optional.mp signed with rfl | given
  · have other : c ∉ marks := fun mark =>
      Bool.false_ne_true ((apart c mark).symm.trans (digit c List.mem_cons_self))
    rw [List.nil_append, List.cons_append, dropMark, if_neg other]
  · obtain ⟨d, mark, rfl⟩ := mem_oneOf.mp given
    rw [List.singleton_append, dropMark, if_pos mark]

private theorem fraction?_given {part : List Char} (matched : part ∈ fractionPart.matches')
    (ends : Ends rest) (apart : rest.head? ≠ some '.') :
    fraction? (part ++ rest) = some rest := by
  rcases mem_marked.mp matched with rfl | ⟨c, point, run, digits, rfl⟩
  · cases rest with
    | nil => rfl
    | cons c later =>
      have other : c ∉ ['.'] := fun point => apart (congrArg some (List.mem_singleton.mp point))
      rw [List.nil_append, fraction?, if_neg other]
  · rw [List.cons_append, fraction?, if_pos point]
    exact digits?_given digits ends

private theorem exponent?_given {part : List Char} (matched : part ∈ exponentPart.matches') :
    exponent? part = some [] := by
  rcases mem_marked.mp matched with rfl | ⟨c, letter, scale, scaled, rfl⟩
  · rfl
  · obtain ⟨sign, signed, run, digits, rfl⟩ := mem_seq.mp scaled
    have ends : Ends [] := nofun
    have unsigned : dropMark ['+', '-'] (sign ++ (run ++ [])) = run ++ [] :=
      dropMark_given signed digits (by simp)
    rw [List.append_nil] at unsigned
    rw [exponent?, if_pos letter, unsigned]
    simpa using digits?_given digits ends

end Given

/-- The characters of a text are used up exactly if the grammar matches it. -/
theorem behind?_eq_nil_iff {text : List Char} :
    behind? text = some [] ↔ text ∈ grammar.matches' := by
  constructor
  · intro used
    obtain ⟨exponent, scaled, powered⟩ := Option.bind_eq_some_iff.mp used
    obtain ⟨fraction, whole, pointed⟩ := Option.bind_eq_some_iff.mp scaled
    obtain ⟨sign, signed, unsigned⟩ := dropMark_takes ['-'] text
    obtain ⟨run, digits, first⟩ := digits?_takes whole
    obtain ⟨part, decimals, second⟩ := fraction?_takes pointed
    obtain ⟨last, power, third⟩ := exponent?_takes powered
    rw [List.append_nil] at third
    have split : sign ++ run ++ part ++ last = text := by
      rw [third, List.append_assoc, second, List.append_assoc, first, unsigned]
    have front := mem_seq.mpr ⟨sign, signed, run, digits, rfl⟩
    have middle := mem_seq.mpr ⟨_, front, part, decimals, rfl⟩
    exact mem_seq.mpr ⟨_, middle, last, power, split⟩
  · intro matched
    obtain ⟨front, inner, last, power, rfl⟩ := mem_seq.mp matched
    obtain ⟨number, outer, part, decimals, rfl⟩ := mem_seq.mp inner
    obtain ⟨sign, signed, run, digits, rfl⟩ := mem_seq.mp outer
    -- Greed does no harm: no later part begins with a digit, nor the last one with a point.
    have letters : ∀ c ∈ ['e', 'E'], c.isDigit = false ∧ c ≠ '.' := by simp
    have points : ∀ c ∈ ['.'], c.isDigit = false := by simp
    have lastEnds : Ends last := fun c head => (letters c (head_of_marked power c head)).1
    have ends : Ends (part ++ last) := by
      intro c head
      cases part with
      | nil => exact lastEnds c head
      | cons d later => exact points c (head_of_marked decimals c head)
    have apart : last.head? ≠ some '.' := fun head =>
      (letters '.' (head_of_marked power '.' head)).2 rfl
    rw [behind?, List.append_assoc, List.append_assoc, dropMark_given signed digits (by simp),
      digits?_given digits ends, Option.bind_some, fraction?_given decimals lastEnds apart,
      Option.bind_some, exponent?_given power]

/-- A text is a number exactly if the grammar matches the whole of it, and whatever the text is, no
bytes behind its last one are asked for. -/
theorem isNumber_iff_matches (text : String) :
    (isNumber text.toList = true ↔ text.toList ∈ grammar.matches') ∧
      read (bytes text.toList) ≠ .error .beyondEnd := by
  refine ⟨isNumber_iff.trans behind?_eq_nil_iff, ?_⟩
  rw [read_bytes]
  split_ifs
  · exact nofun
  · exact nofun

example : isNumber "-12.5E+3".toList = true ∧ isNumber "1.".toList = false := by decide

end LispIndex.Number
