import LispIndex.Atom
import LispIndex.Text.Blank
import LispIndex.Text.Lines

/-!
Documentation comments. A line that starts with a tag opens an entry, and lines without a tag
continue the entry before them; text in front of all tags, or behind a tag that is not known, is
the description if there is none yet.
-/

namespace LispIndex

structure DocEntry where
  name : String
  value : String
deriving DecidableEq

structure DocComment where
  description : Option DocEntry
  params : List DocEntry
  returns : Option DocEntry
  remarks : Option DocEntry
deriving DecidableEq

namespace DocComment

def empty : DocComment := ⟨none, [], none, none⟩

def isEmpty (d : DocComment) : Bool :=
  d.description.isNone && d.params.isEmpty && d.returns.isNone && d.remarks.isNone

/-- Writes one space for every two blanks in a row. -/
def pairBlanks (done : List Char) : List Char → List Char
  | [] => done.reverse
  | [c] => (c :: done).reverse
  | a :: b :: rest =>
    if Text.isBlank a && Text.isBlank b then pairBlanks (' ' :: done) rest
    else pairBlanks (a :: done) (b :: rest)

def joinTag : List Char → List Char
  | '@' :: rest => '@' :: rest.dropWhile Text.isBlank
  | line => line

/-- A line without comment glyphs, blanks around it and blanks behind the sign of its tag. -/
def normalize (line : List Char) : List Char :=
  let spaced := pairBlanks [] (line.map fun c => if c = '\t' then ' ' else c)
  Text.trim (joinTag (spaced.filter fun c => c != ';' && c != '|'))

inductive Facet where
  | remarks
  | description
  | returns
  | param
deriving DecidableEq

def asciiCapital (c : Char) : Char :=
  if c = 'ſ' then 'S' else if c = 'ı' then 'I' else c.toUpper

/-- The facet that a tag word opens; its first letters decide. -/
def facet? (word : List Char) : Option Facet :=
  let capitals := word.map asciiCapital
  if "@REMARK".toList.isPrefixOf capitals then some .remarks
  else if "@DESC".toList.isPrefixOf capitals then some .description
  else if "@RETURN".toList.isPrefixOf capitals then some .returns
  else if "@PARAM".toList.isPrefixOf capitals then some .param
  else none

/-- The lines of an entry, latest first. -/
abbrev EntryLines := List (List Char)

def EntryLines.text (lines : EntryLines) : List Char :=
  [' '].intercalate lines.reverse

/-- What was read so far: the entries, parameters latest first, and the facet that goes on. -/
structure Draft where
  description : Option EntryLines := none
  params : List EntryLines := []
  returns : Option EntryLines := none
  remarks : Option EntryLines := none
  active : Option Facet := none

namespace Draft

/-- Opens an entry, in place of an earlier one unless it is a parameter. -/
def openEntry (d : Draft) (line : List Char) : Option Facet → Draft
  | none => { d with active := none }
  | some .remarks => { d with remarks := some [line], active := some .remarks }
  | some .description => { d with description := some [line], active := some .description }
  | some .returns => { d with returns := some [line], active := some .returns }
  | some .param => { d with params := [line] :: d.params, active := some .param }

def continueEntry (d : Draft) (line : List Char) : Draft :=
  match d.active with
  | some .remarks => { d with remarks := d.remarks.map (line :: ·) }
  | some .description => { d with description := d.description.map (line :: ·) }
  | some .returns => { d with returns := d.returns.map (line :: ·) }
  | some .param =>
    { d with params := match d.params with
        | last :: params => (line :: last) :: params
        | [] => [] }
  | none =>
    if d.description.isNone then { d with description := some [line], active := some .description }
    else d

def add (d : Draft) (line : List Char) : Draft :=
  if ['@'].isPrefixOf line && line.contains ' ' then
    d.openEntry (Text.trim (line.dropWhile (· != ' '))) (facet? (line.takeWhile (· != ' ')))
  else d.continueEntry line

/-- A parameter is its name up to the first space, then its text. -/
def param (lines : EntryLines) : DocEntry :=
  let text := normalize lines.text
  ⟨String.ofList (text.takeWhile (· != ' ')), String.ofList ((text.dropWhile (· != ' ')).drop 1)⟩

def finish (d : Draft) : DocComment where
  description := d.description.map fun lines => ⟨"Description", String.ofList lines.text⟩
  params := d.params.reverse.map param
  returns := d.returns.map fun lines => ⟨"Returns", String.ofList lines.text⟩
  remarks := d.remarks.map fun lines => ⟨"Remarks", String.ofList lines.text⟩

end Draft

def ofAtom (a : Atom) : DocComment :=
  if a.isComment then
    let lines := ((Text.lines a.symbol.toList).map normalize).filter (!·.isEmpty)
    (lines.foldl Draft.add {}).finish
  else empty

end DocComment

end LispIndex
