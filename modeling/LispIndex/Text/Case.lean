import LispIndex.Text.Letters

/-!
Letter case. Names are compared by their small letters: every capital goes to its small letter, a
capital sigma that ends a word to the final sigma. Case folding, used when a name is searched in
prose, also identifies the variants of a small letter.
-/

namespace LispIndex.Text

def inRanges (ranges : List (Nat × Nat)) (c : Char) : Bool :=
  ranges.any fun (first, last) => first ≤ c.toNat && c.toNat ≤ last

def CaseRun.covers (run : CaseRun) (n : Nat) : Bool :=
  let (first, last, step, _) := run
  first ≤ n && n ≤ last && (n - first) % step == 0

/-- The single small letter of a character, which is the character itself when it has none. -/
def smallLetter (c : Char) : Char :=
  if c.toNat < 0x80 then c.toLower
  else
    match smallLetterRuns.find? (CaseRun.covers · c.toNat) with
    | some (_, _, _, shift) => Char.ofNat (c.toNat + shift).toNat
    | none => c

def nextIsCased (text : List Char) : Bool :=
  match text.dropWhile (inRanges caseIgnorableRanges) with
  | c :: _ => inRanges casedRanges c
  | [] => false

/-- The small letters of `c` standing between `before`, read backwards, and `after`. -/
def lowerAt (before : List Char) (c : Char) (after : List Char) : List Char :=
  if c = '\u03a3' then
    if nextIsCased before && !nextIsCased after then ['\u03c2'] else ['\u03c3']
  else if c = '\u0130' then ['i', '\u0307']
  else [smallLetter c]

/-- Lowercases the rest of a text of which `before` was read; `done` is the result in reverse. -/
def lowerFrom (done before : List Char) : List Char → List Char
  | [] => done.reverse
  | c :: after => lowerFrom ((lowerAt before c after).reverse ++ done) (c :: before) after

def lower (text : String) : String :=
  String.ofList (lowerFrom [] [] text.toList)

/-- One character for all the characters that case folding identifies. Folding is that of Unicode 16
and leaves newer capitals as they are. -/
def foldLetter (c : Char) : Char :=
  if inRanges newCapitalRanges c then c
  else
    match letterVariants.find? (·.1 == c.toNat) with
    | some (_, base) => Char.ofNat base
    | none => smallLetter c

/-- Whether two texts agree up to the case of ASCII letters. -/
def sameName (left right : String) : Bool :=
  left.toList.map Char.toLower == right.toList.map Char.toLower

end LispIndex.Text
