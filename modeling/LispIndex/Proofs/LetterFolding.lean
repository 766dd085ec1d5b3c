import LispIndex.Proofs.LetterCase
import Mathlib.Data.List.Forall2

/-!
Case folding and lowercasing on ASCII words. Beyond ASCII only the long s and the Kelvin sign fold
to an ASCII letter, and only the Kelvin sign has one as its small letter, so that both compare a
text with an ASCII word in the same way unless a long s stands for an s of the word.
-/

namespace LispIndex.Text

private theorem table_kelvin : (smallLetterRuns.all fun run =>
    run.capitals.all fun n => decide (0x80 ≤ (n + run.2.2.2).toNat) || n == 0x212A) = true := by
  decide +kernel

private theorem smallLetter_beyond {c : Char} (beyond : 0x80 ≤ c.toNat) (other : c ≠ '\u212a') :
    0x80 ≤ (smallLetter c).toNat := by
  rcases smallLetter_table beyond with own | ⟨run, member, covered, number⟩
  · rwa [own]
  · have entry := List.all_eq_true.mp (List.all_eq_true.mp table_kelvin run member) _ covered
    rw [Bool.or_eq_true, decide_eq_true_eq, beq_iff_eq] at entry
    rw [number]
    exact entry.resolve_right fun same => other (Char.toNat_inj.mp same)

private theorem table_variants : (letterVariants.all fun (n, base) => decide (0x80 ≤ n) &&
    (decide (0x80 ≤ (Char.ofNat base).toNat) || n == 0x17F)) = true := by
  decide +kernel

private theorem foldLetter_of_ascii {c : Char} (ascii : c.toNat < 0x80) :
    foldLetter c = c.toLower := by
  have old : inRanges newCapitalRanges c = false := by
    simp only [inRanges, newCapitalRanges, List.any_cons, List.any_nil, Bool.or_false,
      Bool.or_eq_false_iff, Bool.and_eq_false_iff, decide_eq_false_iff_not]
    omega
  have plain : letterVariants.find? (·.1 == c.toNat) = none := by
    rw [List.find?_eq_none]
    intro variant member same
    have entry := List.all_eq_true.mp table_variants variant member
    rw [Bool.and_eq_true, decide_eq_true_eq] at entry
    rw [beq_iff_eq] at same
    omega
  rw [foldLetter, old, if_neg Bool.false_ne_true, plain]
  exact if_pos ascii

private theorem foldLetter_beyond {c : Char} (beyond : 0x80 ≤ c.toNat) (notLong : c ≠ '\u017f')
    (notKelvin : c ≠ '\u212a') : 0x80 ≤ (foldLetter c).toNat := by
  rw [foldLetter]
  split
  · exact beyond
  · split
    next n base found =>
      have entry := List.all_eq_true.mp table_variants _ (List.mem_of_find?_eq_some found)
      have same := List.find?_some found
      rw [Bool.and_eq_true, Bool.or_eq_true, decide_eq_true_eq, decide_eq_true_eq, beq_iff_eq]
        at entry
      rw [beq_iff_eq] at same
      exact entry.2.resolve_right fun long => notLong (Char.toNat_inj.mp (same.symm.trans long))
    next => exact smallLetter_beyond beyond notKelvin

def SameLetter (c x : Char) : Prop :=
  c.toLower = x.toLower ∨ c = '\u212a' ∧ x.toLower = 'k'

private theorem toLower_ascii {c : Char} (ascii : c.toNat < 0x80) : c.toLower.toNat < 0x80 := by
  rw [toNat_toLower]
  split_ifs <;> omega

theorem toLower_beyond {c : Char} (beyond : 0x80 ≤ c.toNat) : c.toLower = c := by
  apply Char.toNat_inj.mp
  rw [toNat_toLower, if_neg (by omega)]

private theorem ne_of_beyond {c x : Char} (beyond : 0x80 ≤ c.toNat) (ascii : x.toNat < 0x80) :
    c ≠ x := by
  rintro rfl
  omega

private theorem sameLetter_beyond {c x : Char} (beyond : 0x80 ≤ c.toNat) (ascii : x.toNat < 0x80)
    (same : SameLetter c x) : c = '\u212a' ∧ x.toLower = 'k' := by
  refine same.resolve_left ?_
  rw [toLower_beyond beyond]
  exact ne_of_beyond beyond (toLower_ascii ascii)

theorem foldLetter_eq_iff {c x : Char} (apart : c = '\u017f' → x.toLower ≠ 's')
    (ascii : x.toNat < 0x80) : foldLetter c = foldLetter x ↔ SameLetter c x := by
  rw [foldLetter_of_ascii ascii]
  rcases Nat.lt_or_ge c.toNat 0x80 with small | beyond
  · rw [foldLetter_of_ascii small]
    exact ⟨.inl, fun same => same.resolve_right fun kelvin =>
      absurd kelvin.1 (ne_of_beyond (by decide) small).symm⟩
  · constructor
    · intro same
      by_cases kelvin : c = '\u212a'
      · subst kelvin
        exact .inr ⟨rfl, same.symm.trans (by decide +kernel)⟩
      · by_cases long : c = '\u017f'
        · have folded : foldLetter c = 's' := by
            subst long
            decide +kernel
          exact absurd (same.symm.trans folded) (apart long)
        · have outside := foldLetter_beyond beyond long kelvin
          exact absurd same (ne_of_beyond outside (toLower_ascii ascii))
    · intro same
      obtain ⟨rfl, small⟩ := sameLetter_beyond beyond ascii same
      rw [small]
      decide +kernel

theorem lowerAt_eq_iff {c x : Char} (ascii : x.toNat < 0x80) (before after : List Char) :
    lowerAt before c after = [x.toLower] ↔ SameLetter c x := by
  rcases Nat.lt_or_ge c.toNat 0x80 with small | beyond
  · rw [lowerAt_of_ascii small, List.singleton_inj]
    exact ⟨.inl, fun same => same.resolve_right fun kelvin =>
      absurd kelvin.1 (ne_of_beyond (by decide) small).symm⟩
  · constructor
    · intro same
      by_cases kelvin : c = '\u212a'
      · subst kelvin
        have own : lowerAt before '\u212a' after = ['k'] := by
          rw [lowerAt, if_neg (by decide), if_neg (by decide)]
          decide +kernel
        exact .inr ⟨rfl, List.singleton_inj.mp (same.symm.trans own)⟩
      · have outside := toLower_ascii ascii
        unfold lowerAt at same
        split_ifs at same with sigma final dotted
        · exact absurd (List.singleton_inj.mp same) (ne_of_beyond (by decide) outside)
        · exact absurd (List.singleton_inj.mp same) (ne_of_beyond (by decide) outside)
        · exact absurd (congrArg List.length same) (by simp)
        · exact absurd (List.singleton_inj.mp same)
            (ne_of_beyond (smallLetter_beyond beyond kelvin) outside)
    · intro same
      obtain ⟨rfl, small⟩ := sameLetter_beyond beyond ascii same
      rw [small, lowerAt, if_neg (by decide), if_neg (by decide)]
      decide +kernel

/-- The text has no long s, or the name no s that it could stand for. -/
def NoLongS (text name : List Char) : Prop :=
  '\u017f' ∈ text → ∀ x ∈ name, x.toLower ≠ 's'

section Words

variable {word name : List Char}

theorem NoLongS.mono {text : List Char} (apart : NoLongS text name) (part : word ⊆ text) :
    NoLongS word name :=
  fun long => apart (part long)

theorem map_foldLetter_iff (apart : NoLongS word name) (ascii : ∀ x ∈ name, x.toNat < 0x80) :
    word.map foldLetter = name.map foldLetter ↔ List.Forall₂ SameLetter word name := by
  induction word generalizing name with
  | nil => cases name <;> simp
  | cons c word ih =>
    cases name with
    | nil => simp
    | cons x name =>
      obtain ⟨first, others⟩ := List.forall_mem_cons.mp ascii
      have here (long : c = '\u017f') : x.toLower ≠ 's' :=
        apart (long ▸ List.mem_cons_self) x List.mem_cons_self
      have later : NoLongS word name := fun long y member =>
        apart (List.mem_cons_of_mem c long) y (List.mem_cons_of_mem x member)
      rw [List.map_cons, List.map_cons, List.cons.injEq, List.forall₂_cons,
        foldLetter_eq_iff here first, ih later others]

private theorem lowerAt_shape (before : List Char) (c : Char) (after : List Char) :
    lowerAt before c after = ['i', '\u0307'] ∨ ∃ y, lowerAt before c after = [y] := by
  rcases Nat.lt_or_ge c.toNat 0x80 with small | beyond
  · exact .inr ⟨_, lowerAt_of_ascii small before after⟩
  · exact (lowerAt_cases beyond before after).imp_right fun ⟨y, single, _⟩ => ⟨y, single⟩

theorem smallLetters_iff (ascii : ∀ x ∈ name, x.toNat < 0x80) (before : List Char) :
    smallLetters before word = name.map Char.toLower ↔ List.Forall₂ SameLetter word name := by
  induction word generalizing name before with
  | nil => cases name <;> simp [smallLetters]
  | cons c word ih =>
    rw [smallLetters]
    cases name with
    | nil => rcases lowerAt_shape before c word with dotted | ⟨y, single⟩ <;> simp [*]
    | cons x name =>
      obtain ⟨first, others⟩ := List.forall_mem_cons.mp ascii
      rw [List.map_cons, List.forall₂_cons, ← ih others (c :: before),
        ← lowerAt_eq_iff first before word]
      rcases lowerAt_shape before c word with dotted | ⟨y, single⟩
      · -- The dot of a dotted capital stands in no ASCII word.
        rw [dotted]
        refine iff_of_false ?_ (by simp)
        intro same
        have mark : '\u0307' ∈ name.map Char.toLower := by
          rw [← (List.cons.inj same).2]
          exact List.mem_cons_self
        obtain ⟨z, member, small⟩ := List.mem_map.mp mark
        exact ne_of_beyond (by decide) (toLower_ascii (others z member)) small.symm
      · rw [single, List.singleton_append, List.cons.injEq, List.singleton_inj]

theorem lower_eq_iff (ascii : ∀ x ∈ name, x.toNat < 0x80) :
    lower (String.ofList word) = lower (String.ofList name) ↔
      List.Forall₂ SameLetter word name := by
  rw [← String.toList_inj, toList_lower, toList_lower, String.toList_ofList, String.toList_ofList,
    smallLetters_of_ascii [] ascii, smallLetters_iff ascii]

/-- Lowercasing and folding take the same texts for an ASCII word. -/
theorem map_foldLetter_eq_iff (apart : NoLongS word name) (ascii : ∀ x ∈ name, x.toNat < 0x80) :
    word.map foldLetter = name.map foldLetter ↔
      lower (String.ofList word) = lower (String.ofList name) := by
  rw [map_foldLetter_iff apart ascii, lower_eq_iff ascii]

end Words

end LispIndex.Text
