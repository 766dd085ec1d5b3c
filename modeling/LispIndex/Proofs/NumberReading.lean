import LispIndex.Atom.Number
import Mathlib.Data.List.TakeWhile
import Mathlib.Tactic.SplitIfs

/-!
Reading a number off the characters of a text. The places that the reading of the bytes goes through
are those where a part of the characters ends, so that it never asks for bytes behind the last one
and finds a number where the characters are used up by a sign, digits, a fraction and an exponent.
-/

namespace LispIndex.Number

def digits? : List Char → Option (List Char)
  | [] => none
  | c :: rest => if c.isDigit then some (rest.dropWhile Char.isDigit) else none

def dropMark (marks : List Char) : List Char → List Char
  | [] => []
  | c :: rest => if c ∈ marks then rest else c :: rest

def fraction? : List Char → Option (List Char)
  | [] => some []
  | c :: rest => if c ∈ ['.'] then digits? rest else some (c :: rest)

def exponent? : List Char → Option (List Char)
  | [] => some []
  | c :: rest =>
    if c ∈ ['e', 'E'] then digits? (dropMark ['+', '-'] rest) else some (c :: rest)

def behind? (text : List Char) : Option (List Char) :=
  ((digits? (dropMark ['-'] text)).bind fraction?).bind exponent?

theorem isDigit_iff {c : Char} : c.isDigit = true ↔ 48 ≤ c.toNat ∧ c.toNat ≤ 57 := by
  rw [Char.isDigit, Bool.and_eq_true, decide_eq_true_eq, decide_eq_true_eq]
  rfl

private theorem takeWhile_ascii (text : List Char) :
    ∀ c ∈ text.takeWhile Char.isDigit, c.toNat < 0x80 := by
  intro c member
  have digit := isDigit_iff.mp (List.mem_takeWhile_imp member)
  omega

section Bytes

theorem isDigit_byte_iff {byte : UInt8} :
    isDigit byte = true ↔ 48 ≤ byte.toNat ∧ byte.toNat ≤ 57 := by
  rw [isDigit, Bool.and_eq_true, decide_eq_true_eq, decide_eq_true_eq, UInt8.le_iff_toNat_le,
    UInt8.le_iff_toNat_le]
  rfl

private theorem toNat_toUInt8 {c : Char} (ascii : c.toNat < 0x80) : c.toUInt8.toNat = c.toNat :=
  Nat.mod_eq_of_lt (Nat.lt_trans ascii (by decide))

private theorem utf8EncodeChar_ascii {c : Char} (ascii : c.toNat < 0x80) :
    String.utf8EncodeChar c = [c.toUInt8] := by
  have small : c.val.toNat ≤ 127 := Nat.le_of_lt_succ ascii
  rw [String.utf8EncodeChar, if_pos small]
  rfl

/-- No byte of a character beyond ASCII is an ASCII character. -/
theorem utf8EncodeChar_beyond {c : Char} (beyond : 0x80 ≤ c.toNat) :
    ∃ first later, String.utf8EncodeChar c = first :: later ∧ 0x80 ≤ first.toNat := by
  have large : ¬ c.val.toNat ≤ 127 := Nat.not_le_of_lt beyond
  rw [String.utf8EncodeChar, if_neg large]
  split_ifs
  all_goals
    refine ⟨_, _, rfl, ?_⟩
    rw [UInt8.toNat_ofNat']
    omega

theorem bytes_cons (c : Char) (rest : List Char) :
    bytes (c :: rest) = String.utf8EncodeChar c ++ bytes rest := rfl

theorem bytes_append (front rest : List Char) :
    bytes (front ++ rest) = bytes front ++ bytes rest :=
  List.flatMap_append

theorem length_bytes_ascii {text : List Char} (ascii : ∀ c ∈ text, c.toNat < 0x80) :
    (bytes text).length = text.length := by
  induction text with
  | nil => rfl
  | cons c rest ih =>
    obtain ⟨here, later⟩ := List.forall_mem_cons.mp ascii
    rw [bytes_cons, utf8EncodeChar_ascii here, List.singleton_append, List.length_cons, ih later,
      List.length_cons]

theorem bytes_eq_nil {text : List Char} : bytes text = [] ↔ text = [] := by
  cases text with
  | nil => simp [bytes]
  | cons c rest =>
    rcases Nat.lt_or_ge c.toNat 0x80 with ascii | beyond
    · simp [bytes_cons, utf8EncodeChar_ascii ascii]
    · obtain ⟨first, later, encoded, -⟩ := utf8EncodeChar_beyond beyond
      simp [bytes_cons, encoded]

private theorem takeWhile_bytes (text : List Char) :
    (bytes text).takeWhile isDigit = bytes (text.takeWhile Char.isDigit) := by
  induction text with
  | nil => rfl
  | cons c rest ih =>
    rcases Nat.lt_or_ge c.toNat 0x80 with ascii | beyond
    · have same : isDigit c.toUInt8 = c.isDigit := by
        rw [Bool.eq_iff_iff, isDigit_byte_iff, isDigit_iff, toNat_toUInt8 ascii]
      rw [bytes_cons, utf8EncodeChar_ascii ascii, List.singleton_append, List.takeWhile_cons,
        List.takeWhile_cons, same, ih]
      split_ifs
      · rw [bytes_cons, utf8EncodeChar_ascii ascii, List.singleton_append]
      · rfl
    · obtain ⟨first, later, encoded, high⟩ := utf8EncodeChar_beyond beyond
      have letter : ¬ c.isDigit = true := by
        rw [isDigit_iff]
        omega
      have byte : ¬ isDigit first = true := by
        rw [isDigit_byte_iff]
        omega
      rw [bytes_cons, encoded, List.cons_append, List.takeWhile_cons_of_neg byte,
        List.takeWhile_cons_of_neg letter]
      rfl

private theorem head_bytes {marks : List Char} (plain : ∀ m ∈ marks, m.toNat < 0x80) (c : Char)
    (rest : List Char) :
    ((bytes (c :: rest)).head?.any fun byte => marks.any (·.toUInt8 == byte)) = true ↔
      c ∈ marks := by
  rcases Nat.lt_or_ge c.toNat 0x80 with ascii | beyond
  · rw [bytes_cons, utf8EncodeChar_ascii ascii, List.singleton_append, List.head?_cons,
      Option.any_some, List.any_eq_true]
    constructor
    · rintro ⟨m, member, same⟩
      have number := congrArg UInt8.toNat (beq_iff_eq.mp same)
      rw [toNat_toUInt8 (plain m member), toNat_toUInt8 ascii] at number
      rwa [← Char.toNat_inj.mp number]
    · intro member
      exact ⟨c, member, beq_self_eq_true _⟩
  · obtain ⟨first, later, encoded, high⟩ := utf8EncodeChar_beyond beyond
    rw [bytes_cons, encoded, List.cons_append, List.head?_cons, Option.any_some, List.any_eq_true]
    constructor
    · rintro ⟨m, member, same⟩
      have number := congrArg UInt8.toNat (beq_iff_eq.mp same)
      rw [toNat_toUInt8 (plain m member)] at number
      have small := plain m member
      omega
    · intro member
      exact absurd (plain c member) (Nat.not_lt.mpr beyond)

end Bytes

/-- The reading of a text stands at a place: the characters before it are ASCII characters, and
`rest` is to come. -/
structure Ahead (text : List Char) (place : Nat) (rest : List Char) : Prop where
  split : ∃ front, text = front ++ rest ∧ front.length = place ∧ ∀ c ∈ front, c.toNat < 0x80

/-- A reading of the bytes goes as one of the characters: both are refused, or the first stands
where the second leaves off. -/
inductive Follows (text : List Char) : Except Stop Nat → Option (List Char) → Prop where
  | refused : Follows text (.error .noNumber) none
  | arrived {place : Nat} {rest : List Char} (ahead : Ahead text place rest) :
    Follows text (.ok place) (some rest)

variable {text rest : List Char} {place : Nat}

private theorem Follows.bind {reading : Except Stop Nat} {left : Option (List Char)}
    {next : Nat → Except Stop Nat} {take : List Char → Option (List Char)}
    (follows : Follows text reading left)
    (step : ∀ (place : Nat) (rest : List Char), Ahead text place rest →
      Follows text (next place) (take rest)) :
    Follows text (reading >>= next) (left.bind take) := by
  cases follows with
  | refused => exact .refused
  | arrived ahead => exact step _ _ ahead

namespace Ahead

theorem start (text : List Char) : Ahead text 0 text :=
  ⟨[], rfl, rfl, nofun⟩

private theorem bytes_drop (ahead : Ahead text place rest) :
    place ≤ (bytes text).length ∧ (bytes text).drop place = bytes rest := by
  obtain ⟨front, rfl, rfl, ascii⟩ := ahead.split
  rw [bytes_append, ← length_bytes_ascii ascii, List.length_append, List.drop_left]
  exact ⟨Nat.le_add_right _ _, rfl⟩

/-- The reading is at the end of the bytes exactly if no character is to come. -/
theorem at_end_iff (ahead : Ahead text place rest) : place = (bytes text).length ↔ rest = [] := by
  obtain ⟨inside, behind⟩ := ahead.bytes_drop
  rw [← bytes_eq_nil, ← behind, List.drop_eq_nil_iff]
  omega

theorem stands_iff {c : Char} (ahead : Ahead text place (c :: rest)) {marks : List Char}
    (plain : ∀ m ∈ marks, m.toNat < 0x80) :
    stands marks (bytes text) place = true ↔ c ∈ marks := by
  rw [stands, ← List.head?_drop, ahead.bytes_drop.2, head_bytes plain]

private theorem stands_nothing (ahead : Ahead text place []) (marks : List Char) :
    stands marks (bytes text) place = false := by
  rw [stands, ← List.head?_drop, ahead.bytes_drop.2]
  rfl

private theorem tail {c : Char} (ahead : Ahead text place (c :: rest)) (ascii : c.toNat < 0x80) :
    Ahead text (place + 1) rest := by
  obtain ⟨front, rfl, rfl, before⟩ := ahead.split
  refine ⟨front ++ [c], ?_, ?_, ?_⟩
  · rw [List.append_assoc, List.singleton_append]
  · rw [List.length_append, List.length_singleton]
  · intro d member
    rcases List.mem_append.mp member with earlier | last
    · exact before d earlier
    · rwa [List.mem_singleton.mp last]

private theorem dropWhile (ahead : Ahead text place rest) :
    Ahead text (place + (rest.takeWhile Char.isDigit).length) (rest.dropWhile Char.isDigit) := by
  obtain ⟨front, rfl, rfl, before⟩ := ahead.split
  refine ⟨front ++ rest.takeWhile Char.isDigit, ?_, List.length_append, ?_⟩
  · rw [List.append_assoc, List.takeWhile_append_dropWhile]
  · intro c member
    rcases List.mem_append.mp member with earlier | run
    · exact before c earlier
    · exact takeWhile_ascii rest c run

private theorem digits (ahead : Ahead text place rest) :
    Follows text (Number.digits (bytes text) place) (digits? rest) := by
  obtain ⟨inside, behind⟩ := ahead.bytes_drop
  rw [Number.digits, if_pos inside, behind, takeWhile_bytes,
    length_bytes_ascii (takeWhile_ascii rest)]
  have moved := ahead.dropWhile
  cases rest with
  | nil => exact .refused
  | cons c rest =>
    rw [digits?]
    by_cases digit : c.isDigit = true
    · rw [List.takeWhile_cons_of_pos digit, List.dropWhile_cons_of_pos digit] at moved
      rw [if_pos digit, List.takeWhile_cons_of_pos digit]
      exact .arrived moved
    · rw [if_neg digit, List.takeWhile_cons_of_neg digit]
      exact .refused

private theorem dropMark (ahead : Ahead text place rest) {marks : List Char}
    (plain : ∀ m ∈ marks, m.toNat < 0x80) :
    Ahead text (skip marks (bytes text) place) (dropMark marks rest) := by
  rw [skip]
  cases rest with
  | nil =>
    rw [ahead.stands_nothing, if_neg Bool.false_ne_true]
    exact ahead
  | cons c rest =>
    simp only [Number.dropMark, ahead.stands_iff plain]
    split_ifs with mark
    · exact ahead.tail (plain c mark)
    · exact ahead

private theorem fraction (ahead : Ahead text place rest) :
    Follows text (Number.fraction (bytes text) place) (fraction? rest) := by
  rw [Number.fraction]
  cases rest with
  | nil =>
    rw [ahead.stands_nothing, if_neg Bool.false_ne_true]
    exact .arrived ahead
  | cons c rest =>
    have plain : ∀ m ∈ ['.'], m.toNat < 0x80 := by simp
    simp only [fraction?, ahead.stands_iff plain]
    split_ifs with point
    · exact (ahead.tail (plain c point)).digits
    · exact .arrived ahead

private theorem exponent (ahead : Ahead text place rest) :
    Follows text (Number.exponent (bytes text) place) (exponent? rest) := by
  rw [Number.exponent]
  cases rest with
  | nil =>
    rw [ahead.stands_nothing, if_neg Bool.false_ne_true]
    exact .arrived ahead
  | cons c rest =>
    have plain : ∀ m ∈ ['e', 'E'], m.toNat < 0x80 := by simp
    simp only [exponent?, ahead.stands_iff plain]
    split_ifs with letter
    · exact ((ahead.tail (plain c letter)).dropMark (by simp)).digits
    · exact .arrived ahead

end Ahead

/-- The bytes are read to their end if the characters are used up; else no number is found. -/
theorem read_bytes (text : List Char) :
    read (bytes text) = if behind? text = some [] then .ok () else .error .noNumber := by
  have follows : Follows text
      (((digits (bytes text) (skip ['-'] (bytes text) 0)) >>= fraction (bytes text)) >>=
        exponent (bytes text)) (behind? text) :=
    (((Ahead.start text).dropMark (by simp)).digits.bind fun _ _ ahead => ahead.fraction).bind
      fun _ _ ahead => ahead.exponent
  have regrouped : read (bytes text) =
      (((digits (bytes text) (skip ['-'] (bytes text) 0)) >>= fraction (bytes text)) >>=
        exponent (bytes text)) >>= fun place =>
          if place = (bytes text).length then .ok () else .error .noNumber := by
    rw [read, bind_assoc, bind_assoc]
    rfl
  rw [regrouped]
  generalize ((digits (bytes text) (skip ['-'] (bytes text) 0)) >>= fraction (bytes text)) >>=
    exponent (bytes text) = reading at follows
  generalize behind? text = left at follows
  cases follows with
  | refused => rfl
  | arrived ahead =>
    change (if _ then _ else _) = _
    simp only [ahead.at_end_iff, Option.some_inj]

theorem isNumber_iff {text : List Char} : isNumber text = true ↔ behind? text = some [] := by
  rw [isNumber, read_bytes]
  split_ifs with used
  · exact iff_of_true rfl used
  · exact iff_of_false Bool.false_ne_true used

end LispIndex.Number
