import LispIndex.Text.Blank

/-!
Tokens of AutoLISP source. Lexing cuts a text into lexemes, a gap of blanks followed by one token,
and a last gap; nothing of the text is dropped. Strings and comments that are never closed run to
the end of the text, so every text has tokens.
-/

namespace LispIndex

inductive TokenKind where
  | leftParen
  | rightParen
  | quote
  | string
  | blockComment
  | lineComment
  | bare
deriving DecidableEq

structure Token where
  kind : TokenKind
  text : List Char
deriving DecidableEq

structure Lexeme where
  gap : List Char
  token : Token
deriving DecidableEq

namespace Token

def isDelimiter (c : Char) : Bool :=
  Text.isBlank c || c == '(' || c == ')' || c == '\x27' || c == '\x22' || c == ';'

def isLineBreak (c : Char) : Bool :=
  c == '\r' || c == '\n'

/-- The rest of a string up to its closing quote, and what follows it. A backslash takes the next
character with it. `seen` is what was read, in reverse. -/
def splitString (seen : List Char) : List Char → List Char × List Char
  | [] => (seen.reverse, [])
  | '\x22' :: rest => (('\x22' :: seen).reverse, rest)
  | '\\' :: c :: rest => splitString (c :: '\\' :: seen) rest
  | c :: rest => splitString (c :: seen) rest

def splitBlock (seen : List Char) : List Char → List Char × List Char
  | [] => (seen.reverse, [])
  | '|' :: ';' :: rest => ((';' :: '|' :: seen).reverse, rest)
  | c :: rest => splitBlock (c :: seen) rest

/-- The rest of a comment behind its semicolon. A block comment may close with the bar that opens
it; a line comment ends before the line break. -/
def splitComment : List Char → Token × List Char
  | '|' :: rest =>
    let body := splitBlock [] ('|' :: rest)
    (⟨.blockComment, ';' :: body.1⟩, body.2)
  | rest => (⟨.lineComment, ';' :: rest.takeWhile (!isLineBreak ·)⟩, rest.dropWhile (!isLineBreak ·))

def split (c : Char) (rest : List Char) : Token × List Char :=
  if c = '(' then (⟨.leftParen, [c]⟩, rest)
  else if c = ')' then (⟨.rightParen, [c]⟩, rest)
  else if c = '\x27' then (⟨.quote, [c]⟩, rest)
  else if c = '\x22' then
    let body := splitString [] rest
    (⟨.string, c :: body.1⟩, body.2)
  else if c = ';' then splitComment rest
  else (⟨.bare, c :: rest.takeWhile (!isDelimiter ·)⟩, rest.dropWhile (!isDelimiter ·))

theorem splitString_length (seen text : List Char) :
    (splitString seen text).2.length ≤ text.length := by
  fun_induction splitString seen text <;> simp_all <;> omega

theorem splitBlock_length (seen text : List Char) :
    (splitBlock seen text).2.length ≤ text.length := by
  fun_induction splitBlock seen text <;> simp_all <;> omega

theorem splitComment_length (text : List Char) :
    (splitComment text).2.length ≤ text.length := by
  unfold splitComment
  split
  · exact splitBlock_length _ _
  · exact (List.dropWhile_sublist _).length_le

theorem split_length (c : Char) (rest : List Char) : (split c rest).2.length ≤ rest.length := by
  unfold split
  repeat' split
  · exact Nat.le_refl _
  · exact Nat.le_refl _
  · exact Nat.le_refl _
  · exact splitString_length _ _
  · exact splitComment_length _
  · exact (List.dropWhile_sublist _).length_le

theorem split_shorter {text after : List Char} {c : Char}
    (rest : text.dropWhile Text.isBlank = c :: after) :
    (split c after).2.length < text.length := by
  have shorter := (text.dropWhile_sublist Text.isBlank).length_le
  have split := split_length c after
  rw [rest, List.length_cons] at shorter
  omega

end Token

structure Lexing where
  lexemes : List Lexeme
  tail : List Char
deriving DecidableEq

namespace Lexing

def extend (found : Array Lexeme) (text : List Char) : Lexing :=
  let gap := text.takeWhile Text.isBlank
  match rest : text.dropWhile Text.isBlank with
  | [] => ⟨found.toList, gap⟩
  | c :: after =>
    have := Token.split_shorter rest
    extend (found.push ⟨gap, (Token.split c after).1⟩) (Token.split c after).2
termination_by text.length

def ofText (text : List Char) : Lexing :=
  extend #[] text

end Lexing

end LispIndex
