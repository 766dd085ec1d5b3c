import LispIndex.Document
import LispIndex.DocComment

/-!
The place of a parameter name in a block comment, where it can be renamed: the first line that is a
parameter entry for that name.
-/

namespace LispIndex.DocComment

def startsWithWord (word text : List Char) : Bool :=
  (text.take word.length).map Text.foldLetter == word.map Text.foldLetter &&
    (text.drop word.length).head?.any Text.isBlank

/-- Whether the word stands behind blanks; `needed` asks for one more. -/
def followsBlanks (word : List Char) (needed : Bool) : List Char → Bool
  | [] => !needed && startsWithWord word []
  | c :: rest =>
    (!needed && startsWithWord word (c :: rest)) || (Text.isBlank c && followsBlanks word false rest)

def paramTag : List Char := "@param".toList

def isParamLine (name line : List Char) : Bool :=
  let entry := (line ++ ['\n']).dropWhile fun c => Text.isBlank c || c == '|'
  (entry.take paramTag.length).map Char.toLower == paramTag &&
    followsBlanks name true (entry.drop paramTag.length)

def blankGlyphs (line : List Char) : List Char :=
  (line ++ ['\n']).map fun c => if c = ';' || c = '|' then ' ' else c

def findWord? (name : String) (line : List Char) : Option Atom :=
  (placeAtoms #[] .origin (Lexing.ofText (blankGlyphs line)).lexemes).find? fun a =>
    a.name == Text.lower name

def paramRange? (a : Atom) (name : String) : Option Range :=
  if a.isBlockComment then
    let lines := Text.lines a.symbol.toList
    (lines.findIdx? (isParamLine name.toList)).bind fun offset =>
      lines[offset]?.bind fun line =>
        (findWord? name line).map fun word =>
          let start := word.start.character
          ⟨⟨a.line + offset, start⟩, ⟨a.line + offset, start + word.length⟩⟩
  else none

end LispIndex.DocComment
