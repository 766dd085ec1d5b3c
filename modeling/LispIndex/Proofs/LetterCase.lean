import LispIndex.Atom
import LispIndex.Proofs.NumberReading
import Mathlib.Data.List.TakeWhile
import Mathlib.Tactic.SplitIfs

/-!
Lowercasing once is enough: no small letter is a capital, so the small letters of a text are left as
they are. Literals are spelled with ASCII characters that no other character lowercases to, so that
lowercasing neither makes a literal nor takes one away.
-/

namespace LispIndex

namespace Text

section Table

def CaseRun.capitals (run : CaseRun) : List Nat :=
  let (first, last, step, _) := run
  List.range' first ((last - first) / step + 1) step

theorem CaseRun.mem_capitals {run : CaseRun} {n : Nat} (covered : run.covers n = true) :
    n ∈ run.capitals := by
  obtain ⟨first, last, step, shift⟩ := run
  simp only [covers, Bool.and_eq_true, decide_eq_true_eq, beq_iff_eq] at covered
  obtain ⟨⟨low, high⟩, turn⟩ := covered
  have place := Nat.div_add_mod (n - first) step
  have bound := Nat.div_le_div_right (c := step) (Nat.sub_le_sub_right high first)
  exact List.mem_range'.mpr ⟨(n - first) / step, Nat.lt_succ_of_le bound, by omega⟩

def capitalBits : Nat :=
  (smallLetterRuns.flatMap CaseRun.capitals).foldr (fun n bits => bits ||| 1 <<< n) 0

private theorem testBit_foldr (numbers : List Nat) (n : Nat) :
    (numbers.foldr (fun n bits => bits ||| 1 <<< n) 0).testBit n = decide (n ∈ numbers) := by
  induction numbers with
  | nil => simp
  | cons m rest ih =>
    rw [List.foldr_cons, Nat.testBit_or, ih, Nat.one_shiftLeft, Nat.testBit_two_pow]
    by_cases same : m = n
    · simp [same]
    · simp [same, Ne.symm same]

/-- Whether a small letter is a character without small letters of its own, and beyond ASCII unless
it is `k`, which the Kelvin sign goes to. -/
def settles (n : Nat) : Bool :=
  !capitalBits.testBit n && n != 0x130 && (n == 0x6B || decide (0x80 ≤ n)) &&
    (decide (n < 0xD800) || decide (0xDFFF < n) && decide (n < 0x110000))

private theorem table_settles : (smallLetterRuns.all fun run =>
    run.capitals.all fun n => settles (n + run.2.2.2).toNat) = true := by
  decide +kernel

private theorem not_covers_of_settles {n : Nat} (settled : settles n = true) {run : CaseRun}
    (member : run ∈ smallLetterRuns) : run.covers n = false := by
  rw [Bool.eq_false_iff]
  intro covered
  have capital : capitalBits.testBit n = true := by
    rw [capitalBits, testBit_foldr, decide_eq_true_eq]
    exact List.mem_flatMap.mpr ⟨run, member, run.mem_capitals covered⟩
  simp [settles, capital] at settled

/-- Beyond ASCII a character is its own small letter or the table has one for it. -/
theorem smallLetter_table {c : Char} (beyond : 0x80 ≤ c.toNat) : smallLetter c = c ∨
    ∃ run ∈ smallLetterRuns, c.toNat ∈ run.capitals ∧
      (smallLetter c).toNat = (c.toNat + run.2.2.2).toNat := by
  rw [smallLetter, if_neg (Nat.not_lt.mpr beyond)]
  split
  next first last step shift found =>
    have member := List.mem_of_find?_eq_some found
    have covered := CaseRun.mem_capitals
      (List.find?_some (p := (CaseRun.covers · c.toNat)) found)
    have settled := List.all_eq_true.mp (List.all_eq_true.mp table_settles _ member) _ covered
    have valid : (c.toNat + shift).toNat.isValidChar := by
      simp only [settles, Bool.and_eq_true, Bool.or_eq_true, decide_eq_true_eq] at settled
      exact settled.2
    have number : (Char.ofNat (c.toNat + shift).toNat).toNat = (c.toNat + shift).toNat := by
      rw [Char.ofNat, dif_pos valid]
      rfl
    exact .inr ⟨_, member, covered, number⟩
  next => exact .inl rfl

theorem smallLetter_cases {c : Char} (beyond : 0x80 ≤ c.toNat) :
    smallLetter c = c ∨ settles (smallLetter c).toNat = true := by
  refine (smallLetter_table beyond).imp_right ?_
  rintro ⟨run, member, covered, number⟩
  rw [number]
  exact List.all_eq_true.mp (List.all_eq_true.mp table_settles run member) _ covered

end Table

/-- Whether lowercasing leaves a character as it is wherever it stands. -/
def isSmall (c : Char) : Bool :=
  c != '\u03a3' && c != '\u0130' && smallLetter c == c

theorem isSmall_iff {c : Char} :
    isSmall c = true ↔ c ≠ '\u03a3' ∧ c ≠ '\u0130' ∧ smallLetter c = c := by
  simp [isSmall, and_assoc]

private theorem lowerAt_of_isSmall {c : Char} (small : isSmall c = true)
    (before after : List Char) :
    lowerAt before c after = [c] := by
  obtain ⟨notSigma, notDotted, own⟩ := isSmall_iff.mp small
  rw [lowerAt, if_neg notSigma, if_neg notDotted, own]

private theorem isSmall_of_settles {c : Char} (settled : settles c.toNat = true) :
    isSmall c = true := by
  have own : smallLetter c = c := by
    rw [smallLetter]
    split
    next ascii =>
      have single : c.toNat = 0x6B := by
        simp only [settles, Bool.and_eq_true, Bool.or_eq_true, decide_eq_true_eq, beq_iff_eq]
          at settled
        omega
      obtain rfl : c = 'k' := Char.toNat_inj.mp single
      rfl
    next =>
      have missing : smallLetterRuns.find? (CaseRun.covers · c.toNat) = none := by
        rw [List.find?_eq_none]
        intro run member
        simp [not_covers_of_settles settled member]
      rw [missing]
  have other (d : Char) (unsettled : settles d.toNat = false) : c ≠ d := by
    rintro rfl
    rw [settled] at unsettled
    cases unsettled
  exact isSmall_iff.mpr ⟨other _ (by decide +kernel), other _ (by decide +kernel), own⟩

theorem toNat_toLower (c : Char) : c.toLower.toNat =
    if 65 ≤ c.toNat ∧ c.toNat ≤ 90 then c.toNat + 32 else c.toNat := by
  unfold Char.toLower
  split
  next capital =>
    rw [if_pos (show 65 ≤ c.toNat ∧ c.toNat ≤ 90 from capital)]
    have small : c.val.toNat + 32 < 2 ^ 32 := by
      have upper : c.val.toNat ≤ 90 := capital.2
      omega
    change (c.val + 32).toNat = c.val.toNat + 32
    rw [UInt32.toNat_add]
    exact Nat.mod_eq_of_lt small
  next small => rw [if_neg (show ¬ (65 ≤ c.toNat ∧ c.toNat ≤ 90) from small)]

private theorem toLower_toLower (c : Char) : c.toLower.toLower = c.toLower := by
  apply Char.toNat_inj.mp
  rw [toNat_toLower c.toLower, toNat_toLower c]
  split_ifs <;> omega

theorem map_toLower_map (text : List Char) :
    (text.map Char.toLower).map Char.toLower = text.map Char.toLower := by
  rw [List.map_map]
  exact List.map_congr_left fun c _ => toLower_toLower c

theorem toLower_eq_iff {c d : Char} (caseless : d.isAlpha = false) : c.toLower = d ↔ c = d := by
  have number := toNat_toLower c
  have outside : ¬ (65 ≤ d.toNat ∧ d.toNat ≤ 90) ∧ ¬ (97 ≤ d.toNat ∧ d.toNat ≤ 122) := by
    change (decide (65 ≤ d.val ∧ d.val ≤ 90) ||
      decide (97 ≤ d.val) && decide (d.val ≤ 122)) = false at caseless
    simpa [UInt32.le_iff_toNat_le] using caseless
  rw [← Char.toNat_inj, ← Char.toNat_inj]
  split_ifs at number <;> omega

theorem toLower_beq {c d : Char} (caseless : d.isAlpha = false) : (c.toLower == d) = (c == d) := by
  rw [Bool.eq_iff_iff, beq_iff_eq, beq_iff_eq, toLower_eq_iff caseless]

private theorem isSmall_smallLetter {c : Char} (notSigma : c ≠ '\u03a3')
    (notDotted : c ≠ '\u0130') :
    isSmall (smallLetter c) = true := by
  by_cases ascii : c.toNat < 0x80
  · have lower : smallLetter c = c.toLower := if_pos ascii
    have number := toNat_toLower c
    have still : c.toLower.toNat < 0x80 := by
      split_ifs at number <;> omega
    have other (d : Char) (beyond : 0x80 ≤ d.toNat) : c.toLower ≠ d := by
      rintro rfl
      omega
    rw [lower]
    refine isSmall_iff.mpr ⟨other _ (by decide), other _ (by decide), ?_⟩
    rw [smallLetter, if_pos still, toLower_toLower]
  · rcases smallLetter_cases (Nat.not_lt.mp ascii) with own | settled
    · rw [own]
      exact isSmall_iff.mpr ⟨notSigma, notDotted, own⟩
    · exact isSmall_of_settles settled

/-- What lowercasing makes of a character beyond ASCII. -/
theorem lowerAt_cases {c : Char} (beyond : 0x80 ≤ c.toNat) (before after : List Char) :
    lowerAt before c after = ['i', '\u0307'] ∨
      ∃ x, lowerAt before c after = [x] ∧ (x = 'k' ∨ 0x80 ≤ x.toNat) := by
  unfold lowerAt
  split_ifs with sigma final dotted
  · exact .inr ⟨_, rfl, .inr (by decide)⟩
  · exact .inr ⟨_, rfl, .inr (by decide)⟩
  · exact .inl rfl
  · refine .inr ⟨_, rfl, ?_⟩
    rcases smallLetter_cases beyond with own | settled
    · rw [own]
      exact .inr beyond
    · simp only [settles, Bool.and_eq_true, Bool.or_eq_true, decide_eq_true_eq, beq_iff_eq]
        at settled
      rw [← Char.toNat_inj]
      exact settled.1.2

theorem lowerAt_of_ascii {c : Char} (ascii : c.toNat < 0x80) (before after : List Char) :
    lowerAt before c after = [c.toLower] := by
  have other (d : Char) (beyond : 0x80 ≤ d.toNat) : c ≠ d := by
    rintro rfl
    omega
  rw [lowerAt, if_neg (other _ (by decide)), if_neg (other _ (by decide)), smallLetter,
    if_pos ascii]

private theorem isSmall_lowerAt (before after : List Char) (c : Char) :
    ∀ x ∈ lowerAt before c after, isSmall x = true := by
  intro x member
  unfold lowerAt at member
  split_ifs at member with sigma final dotted
  · obtain rfl := List.mem_singleton.mp member
    decide +kernel
  · obtain rfl := List.mem_singleton.mp member
    decide +kernel
  · obtain rfl | rfl : x = 'i' ∨ x = '\u0307' := by simpa using member
    · decide +kernel
    · decide +kernel
  · obtain rfl := List.mem_singleton.mp member
    exact isSmall_smallLetter sigma dotted

def smallLetters (before : List Char) : List Char → List Char
  | [] => []
  | c :: after => lowerAt before c after ++ smallLetters (c :: before) after

private theorem lowerFrom_eq (done before text : List Char) :
    lowerFrom done before text = done.reverse ++ smallLetters before text := by
  induction text generalizing done before with
  | nil => simp [lowerFrom, smallLetters]
  | cons c after ih => simp [lowerFrom, smallLetters, ih]

theorem toList_lower (text : String) : (lower text).toList = smallLetters [] text.toList := by
  rw [lower, String.toList_ofList, lowerFrom_eq]
  rfl

private theorem isSmall_smallLetters (before text : List Char) :
    ∀ x ∈ smallLetters before text, isSmall x = true := by
  induction text generalizing before with
  | nil => simp [smallLetters]
  | cons c after ih =>
    intro x member
    rcases List.mem_append.mp member with here | later
    · exact isSmall_lowerAt before after c x here
    · exact ih (c :: before) x later

private theorem smallLetters_of_isSmall (before : List Char) {text : List Char}
    (small : ∀ c ∈ text, isSmall c = true) : smallLetters before text = text := by
  induction text generalizing before with
  | nil => rfl
  | cons c after ih =>
    rw [smallLetters, lowerAt_of_isSmall (small c (by simp)),
      ih _ fun x member => small x (by simp [member]), List.singleton_append]

/-- Names in small letters stay as they are. -/
theorem lower_lower (text : String) : lower (lower text) = lower text := by
  rw [← String.toList_inj, toList_lower (lower text), toList_lower text]
  exact smallLetters_of_isSmall [] (isSmall_smallLetters [] text.toList)

theorem smallLetters_of_ascii (before : List Char) {text : List Char}
    (ascii : ∀ c ∈ text, c.toNat < 0x80) : smallLetters before text = text.map Char.toLower := by
  induction text generalizing before with
  | nil => rfl
  | cons c after ih =>
    rw [smallLetters, lowerAt_of_ascii (ascii c (by simp)),
      ih _ fun x member => ascii x (by simp [member]), List.singleton_append, List.map_cons]

end Text

namespace Number

def isMark (c : Char) : Bool :=
  c.isDigit || c == '-' || c == '+' || c == '.' || c == 'e' || c == 'E'

section Marks

variable {text rest : List Char}

private theorem digits?_marks (found : digits? text = some rest)
    (marks : ∀ c ∈ rest, isMark c = true) :
    ∀ c ∈ text, isMark c = true := by
  cases text with
  | nil => cases found
  | cons first others =>
    rw [digits?] at found
    split_ifs at found with digit
    obtain rfl := Option.some.inj found
    intro c member
    rcases List.mem_cons.mp member with rfl | later
    · simp [isMark, digit]
    · rw [← List.takeWhile_append_dropWhile (p := Char.isDigit) (l := others)] at later
      rcases List.mem_append.mp later with run | behind
      · simp [isMark, List.mem_takeWhile_imp run]
      · exact marks c behind

private theorem dropMark_marks {allowed : List Char} (known : ∀ c ∈ allowed, isMark c = true)
    (marks : ∀ c ∈ dropMark allowed text, isMark c = true) : ∀ c ∈ text, isMark c = true := by
  cases text with
  | nil => exact nofun
  | cons first others =>
    rw [dropMark] at marks
    split_ifs at marks with mark
    · exact List.forall_mem_cons.mpr ⟨known first mark, marks⟩
    · exact marks

private theorem fraction?_marks (found : fraction? text = some rest)
    (marks : ∀ c ∈ rest, isMark c = true) : ∀ c ∈ text, isMark c = true := by
  cases text with
  | nil => exact nofun
  | cons first others =>
    rw [fraction?] at found
    split_ifs at found with point
    · have known : ∀ c ∈ ['.'], isMark c = true := by simp [isMark]
      exact List.forall_mem_cons.mpr ⟨known first point, digits?_marks found marks⟩
    · obtain rfl := Option.some.inj found
      exact marks

private theorem exponent?_marks (found : exponent? text = some rest)
    (marks : ∀ c ∈ rest, isMark c = true) : ∀ c ∈ text, isMark c = true := by
  cases text with
  | nil => exact nofun
  | cons first others =>
    rw [exponent?] at found
    split_ifs at found with letter
    · have known : ∀ c ∈ ['e', 'E'], isMark c = true := by simp [isMark]
      exact List.forall_mem_cons.mpr
        ⟨known first letter, dropMark_marks (by simp [isMark]) (digits?_marks found marks)⟩
    · obtain rfl := Option.some.inj found
      exact marks

private theorem isNumber_marks (number : isNumber text = true) : ∀ c ∈ text, isMark c = true := by
  obtain ⟨behind, fraction, exponent⟩ := Option.bind_eq_some_iff.mp (isNumber_iff.mp number)
  obtain ⟨after, digits, point⟩ := Option.bind_eq_some_iff.mp fraction
  have last : ∀ c ∈ behind, isMark c = true := exponent?_marks exponent nofun
  exact dropMark_marks (by simp [isMark]) (digits?_marks digits (fraction?_marks point last))

end Marks

section Capitals

variable (text : List Char)

private theorem isDigit_toLower (c : Char) : c.toLower.isDigit = c.isDigit := by
  have number := Text.toNat_toLower c
  rw [Bool.eq_iff_iff, isDigit_iff, isDigit_iff]
  split_ifs at number <;> omega

private theorem toLower_mem_exponential {c : Char} : c.toLower ∈ ['e', 'E'] ↔ c ∈ ['e', 'E'] := by
  have number := Text.toNat_toLower c
  simp only [List.mem_cons, List.not_mem_nil, or_false, ← Char.toNat_inj]
  change c.toLower.toNat = 101 ∨ c.toLower.toNat = 69 ↔ c.toNat = 101 ∨ c.toNat = 69
  split_ifs at number <;> omega

private theorem toLower_mem_caseless {marks : List Char} (caseless : ∀ m ∈ marks, m.isAlpha = false)
    {c : Char} : c.toLower ∈ marks ↔ c ∈ marks := by
  constructor
  · intro member
    rwa [(Text.toLower_eq_iff (caseless _ member)).mp rfl]
  · intro member
    rwa [(Text.toLower_eq_iff (caseless c member)).mpr rfl]

private theorem digits?_map :
    digits? (text.map Char.toLower) = (digits? text).map (·.map Char.toLower) := by
  cases text with
  | nil => rfl
  | cons c rest =>
    have digits : Char.isDigit ∘ Char.toLower = Char.isDigit := funext isDigit_toLower
    rw [List.map_cons, digits?, digits?, isDigit_toLower, List.dropWhile_map, digits]
    split_ifs <;> rfl

private theorem dropMark_map {marks : List Char} (caseless : ∀ m ∈ marks, m.isAlpha = false) :
    dropMark marks (text.map Char.toLower) = (dropMark marks text).map Char.toLower := by
  cases text with
  | nil => rfl
  | cons c rest =>
    simp only [List.map_cons, dropMark, toLower_mem_caseless caseless]
    split_ifs <;> rfl

private theorem fraction?_map :
    fraction? (text.map Char.toLower) = (fraction? text).map (·.map Char.toLower) := by
  cases text with
  | nil => rfl
  | cons c rest =>
    have caseless : ∀ m ∈ ['.'], m.isAlpha = false := by simp
    simp only [List.map_cons, fraction?, toLower_mem_caseless caseless, digits?_map]
    split_ifs <;> rfl

private theorem exponent?_map :
    exponent? (text.map Char.toLower) = (exponent? text).map (·.map Char.toLower) := by
  cases text with
  | nil => rfl
  | cons c rest =>
    have caseless : ∀ m ∈ ['+', '-'], m.isAlpha = false := by simp
    simp only [List.map_cons, exponent?, toLower_mem_exponential, dropMark_map rest caseless,
      digits?_map]
    split_ifs <;> rfl

private theorem behind?_map :
    behind? (text.map Char.toLower) = (behind? text).map (·.map Char.toLower) := by
  rw [behind?, behind?, dropMark_map text (by simp), digits?_map]
  cases digits? (dropMark ['-'] text) with
  | none => rfl
  | some behind =>
    rw [Option.map_some, Option.bind_some, Option.bind_some, fraction?_map]
    cases fraction? behind with
    | none => rfl
    | some after => exact exponent?_map after

private theorem isNumber_map : isNumber (text.map Char.toLower) = isNumber text := by
  rw [Bool.eq_iff_iff, isNumber_iff, isNumber_iff, behind?_map]
  cases behind? text with
  | none => exact Iff.rfl
  | some rest => simp

end Capitals

end Number

def isGlyph (c : Char) : Bool :=
  c == '\x27' || c == '(' || c == ')' || c == '.' || c == ';' || c == '\x22'

def isLiteralText (text : String) : Bool :=
  Text.sameName text "t" || Text.sameName text "nil" || Number.isNumber text.toList

theorem isPrimitiveText_eq (text : String) :
    isPrimitiveText text = (text.toList.head?.any isGlyph || isLiteralText text) := by
  unfold isPrimitiveText
  split
  next empty =>
    obtain rfl : text = "" := String.toList_inj.mp empty
    rfl
  next c rest front =>
    simp [front, isGlyph, isLiteralText, Bool.or_assoc]

/-- The characters of a literal are ASCII characters other than `k`. -/
theorem spelled_of_isLiteralText {text : String} (literal : isLiteralText text = true) :
    ∀ c ∈ text.toList, c.toNat < 0x80 ∧ c ≠ 'k' := by
  have word (name : String) (letters : (name.toList.map Char.toLower).all
      (fun d => decide (d.toNat < 0x80) && d != 'k') = true)
      (same : Text.sameName text name = true) : ∀ c ∈ text.toList, c.toNat < 0x80 ∧ c ≠ 'k' := by
    intro c member
    rw [Text.sameName, beq_iff_eq] at same
    have listed := List.mem_map_of_mem (f := Char.toLower) member
    rw [same] at listed
    have letter := List.all_eq_true.mp letters _ listed
    have number := Text.toNat_toLower c
    simp only [Bool.and_eq_true, decide_eq_true_eq, bne_iff_ne, ne_eq, ← Char.toNat_inj] at letter ⊢
    change c.toLower.toNat < 0x80 ∧ ¬ c.toLower.toNat = 107 at letter
    change c.toNat < 0x80 ∧ ¬ c.toNat = 107
    split_ifs at number <;> omega
  simp only [isLiteralText, Bool.or_eq_true] at literal
  rcases literal with (true | empty) | number
  · exact word "t" (by decide) true
  · exact word "nil" (by decide) empty
  · intro c member
    have mark := Number.isNumber_marks number c member
    simp only [Number.isMark, Bool.or_eq_true, beq_iff_eq] at mark
    rcases mark with ((((digit | rfl) | rfl) | rfl) | rfl) | rfl
    · have bounds := Number.isDigit_iff.mp digit
      refine ⟨by omega, ?_⟩
      rintro rfl
      exact absurd bounds.2 (by decide)
    all_goals decide

theorem isLiteralText_map {text small : String}
    (lowered : small.toList = text.toList.map Char.toLower) :
    isLiteralText small = isLiteralText text := by
  simp only [isLiteralText, Text.sameName, lowered, Text.map_toLower_map, Number.isNumber_map]

namespace Text

/-- A character beyond ASCII leaves a character in the lowercased text that no literal has. -/
theorem ascii_of_spelled (before : List Char) {text : List Char}
    (spelled : ∀ x ∈ smallLetters before text, x.toNat < 0x80 ∧ x ≠ 'k') :
    ∀ c ∈ text, c.toNat < 0x80 := by
  induction text generalizing before with
  | nil => exact nofun
  | cons c after ih =>
    rw [smallLetters, List.forall_mem_append] at spelled
    refine List.forall_mem_cons.mpr ⟨?_, ih _ spelled.2⟩
    by_contra beyond
    have here := spelled.1
    rcases lowerAt_cases (Nat.not_lt.mp beyond) before after with pair | ⟨x, single, outside⟩
    · rw [pair] at here
      exact absurd (here '\u0307' (by simp)).1 (by decide)
    · rw [single] at here
      have inside := here x (by simp)
      rcases outside with kelvin | far
      · exact inside.2 kelvin
      · omega

private theorem isLiteralText_lower (text : String) :
    isLiteralText (lower text) = isLiteralText text := by
  -- A literal on either side is ASCII on both.
  have same (ascii : ∀ c ∈ text.toList, c.toNat < 0x80) :
      isLiteralText (lower text) = isLiteralText text := by
    apply isLiteralText_map
    rw [toList_lower, smallLetters_of_ascii [] ascii]
  rw [Bool.eq_iff_iff]
  constructor
  · intro literal
    have spelled := spelled_of_isLiteralText literal
    rw [toList_lower] at spelled
    rwa [← same (ascii_of_spelled [] spelled)]
  · intro literal
    rwa [same fun c member => (spelled_of_isLiteralText literal c member).1]

theorem isGlyph_toLower (c : Char) : isGlyph c.toLower = isGlyph c := by
  simp (disch := decide) only [isGlyph, toLower_beq]

private theorem isGlyph_lower (text : String) :
    (lower text).toList.head?.any isGlyph = text.toList.head?.any isGlyph := by
  rw [toList_lower]
  cases text.toList with
  | nil => rfl
  | cons c after =>
    have far (x : Char) (outside : x = 'k' ∨ 0x80 ≤ x.toNat) : isGlyph x = false := by
      rw [Bool.eq_false_iff]
      intro glyph
      simp only [isGlyph, Bool.or_eq_true, beq_iff_eq] at glyph
      rcases glyph with ((((rfl | rfl) | rfl) | rfl) | rfl) | rfl <;>
        exact absurd outside (by decide)
    by_cases ascii : c.toNat < 0x80
    · simp [smallLetters, lowerAt_of_ascii ascii, isGlyph_toLower]
    · rcases lowerAt_cases (Nat.not_lt.mp ascii) [] after with pair | ⟨x, single, outside⟩
      · simp [smallLetters, pair, far c (.inr (Nat.not_lt.mp ascii))]
        rfl
      · simp [smallLetters, single, far c (.inr (Nat.not_lt.mp ascii)), far x outside]

end Text

/-- Texts with the same small letters are literals or punctuation together. -/
theorem isPrimitiveText_lower (text : String) :
    isPrimitiveText (Text.lower text) = isPrimitiveText text := by
  rw [isPrimitiveText_eq, isPrimitiveText_eq, Text.isGlyph_lower, Text.isLiteralText_lower]

end LispIndex
