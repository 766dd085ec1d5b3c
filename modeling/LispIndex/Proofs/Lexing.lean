import LispIndex.Token
import Mathlib.Data.List.TakeWhile
import Mathlib.Tactic.SplitIfs

/-!
How the lexemes of a text come about. `Lexes` is lexing as a relation, one token at a time, on
which facts about all texts are proved by induction. Gaps and tokens joined give the text back.
-/

namespace LispIndex

namespace Token

theorem splitString_append (seen text : List Char) :
    (splitString seen text).1 ++ (splitString seen text).2 = seen.reverse ++ text := by
  fun_induction splitString seen text <;> simp_all

theorem splitBlock_append (seen text : List Char) :
    (splitBlock seen text).1 ++ (splitBlock seen text).2 = seen.reverse ++ text := by
  fun_induction splitBlock seen text <;> simp_all

theorem splitComment_append (rest : List Char) :
    (splitComment rest).1.text ++ (splitComment rest).2 = ';' :: rest := by
  unfold splitComment
  split
  · simp [splitBlock_append]
  · simp [List.takeWhile_append_dropWhile]

theorem split_append (c : Char) (rest : List Char) :
    (split c rest).1.text ++ (split c rest).2 = c :: rest := by
  unfold split
  split_ifs with left right quote string comment
  · rfl
  · rfl
  · rfl
  · simp [splitString_append]
  · rw [splitComment_append, comment]
  · simp [List.takeWhile_append_dropWhile]

private theorem splitComment_text (rest : List Char) :
    ∃ more, (splitComment rest).1.text = ';' :: more := by
  unfold splitComment
  split <;> exact ⟨_, rfl⟩

theorem split_text (c : Char) (rest : List Char) : ∃ more, (split c rest).1.text = c :: more := by
  unfold split
  split_ifs with left right quote string comment
  · exact ⟨_, rfl⟩
  · exact ⟨_, rfl⟩
  · exact ⟨_, rfl⟩
  · exact ⟨_, rfl⟩
  · rw [comment]
    exact splitComment_text rest
  · exact ⟨_, rfl⟩

end Token

inductive Lexes : List Char → List Lexeme → List Char → Prop
  | blank (tail : List Char) (blanks : ∀ b ∈ tail, Text.isBlank b = true) : Lexes tail [] tail
  | token (gap : List Char) (c : Char) (rest : List Char) (lexemes : List Lexeme) (tail : List Char)
      (blanks : ∀ b ∈ gap, Text.isBlank b = true) (start : Text.isBlank c = false)
      (more : Lexes (Token.split c rest).2 lexemes tail) :
      Lexes (gap ++ c :: rest) (⟨gap, (Token.split c rest).1⟩ :: lexemes) tail

namespace Lexing

private theorem blank_run (text rest : List Char) (c : Char)
    (stops : text.dropWhile Text.isBlank = c :: rest) :
    text.takeWhile Text.isBlank ++ c :: rest = text ∧ Text.isBlank c = false := by
  have first := List.head?_dropWhile_not Text.isBlank text
  simp only [stops, List.head?_cons] at first
  refine ⟨?_, first⟩
  rw [← stops]
  exact List.takeWhile_append_dropWhile

private theorem extend_lexes (found : Array Lexeme) (text : List Char) :
    ∃ lexemes, (extend found text).lexemes = found.toList ++ lexemes ∧
      Lexes text lexemes (extend found text).tail := by
  fun_induction extend found text with
  | case1 found text gap rest =>
    have blanks := List.dropWhile_eq_nil_iff.mp rest
    have whole : gap = text := List.takeWhile_eq_self_iff.mpr blanks
    refine ⟨[], by simp, ?_⟩
    rw [whole]
    exact .blank text blanks
  | case2 found text gap c after rest shorter ih =>
    obtain ⟨lexemes, appended, more⟩ := ih
    obtain ⟨joined, start⟩ := blank_run text after c rest
    refine ⟨⟨gap, (Token.split c after).1⟩ :: lexemes, by simpa using appended, ?_⟩
    have blanks : ∀ b ∈ gap, Text.isBlank b = true := fun b member => List.mem_takeWhile_imp member
    have step := Lexes.token gap c after lexemes _ blanks start more
    rwa [joined] at step

theorem ofText_lexes (text : List Char) : Lexes text (ofText text).lexemes (ofText text).tail := by
  obtain ⟨lexemes, appended, lexes⟩ := extend_lexes #[] text
  have same : (extend #[] text).lexemes = lexemes := by simpa using appended
  change Lexes text (extend #[] text).lexemes (extend #[] text).tail
  rw [same]
  exact lexes

end Lexing

end LispIndex
