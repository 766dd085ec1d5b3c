import LispIndex.Json.Decimal

/-!
Tokens of JSON. Reading is strict: blanks are space, tab, carriage return and line feed, control
characters in a text have to be escaped, and numbers have no leading zeros. A text with a surrogate
that lacks its partner is a token without a value.
-/

namespace LispIndex.Json

inductive Token where
  | arrayOpen
  | arrayClose
  | objectOpen
  | objectClose
  | comma
  | colon
  | null
  | bool (value : Bool)
  | number (value : Decimal)
  | text (value : Option String)
deriving DecidableEq

namespace Token

def isSpace (c : Char) : Bool :=
  c == ' ' || c == '\t' || c == '\r' || c == '\n'

def hexValue? (c : Char) : Option Nat :=
  if '0' ≤ c ∧ c ≤ '9' then some (c.toNat - '0'.toNat)
  else if 'a' ≤ c ∧ c ≤ 'f' then some (c.toNat - 'a'.toNat + 10)
  else if 'A' ≤ c ∧ c ≤ 'F' then some (c.toNat - 'A'.toNat + 10)
  else none

def hexCode? (a b c d : Char) : Option Nat := do
  let a ← hexValue? a
  let b ← hexValue? b
  let c ← hexValue? c
  let d ← hexValue? d
  return ((a * 16 + b) * 16 + c) * 16 + d

def escaped? : Char → Option Char
  | '\x22' => some '\x22'
  | '\\' => some '\\'
  | '/' => some '/'
  | 'b' => some '\x08'
  | 'f' => some '\x0c'
  | 'n' => some '\n'
  | 'r' => some '\r'
  | 't' => some '\t'
  | _ => none

def readCodes (seen : List Nat) : List Char → Option (List Nat × List Char)
  | [] => none
  | '\x22' :: rest => some (seen.reverse, rest)
  | '\\' :: 'u' :: a :: b :: c :: d :: rest =>
    match hexCode? a b c d with
    | some code => readCodes (code :: seen) rest
    | none => none
  | '\\' :: c :: rest =>
    match escaped? c with
    | some c => readCodes (c.toNat :: seen) rest
    | none => none
  | c :: rest => if c.toNat < 0x20 then none else readCodes (c.toNat :: seen) rest

def isHighSurrogate (code : Nat) : Bool :=
  0xD800 ≤ code && code ≤ 0xDBFF

def isLowSurrogate (code : Nat) : Bool :=
  0xDC00 ≤ code && code ≤ 0xDFFF

/-- Joins the surrogates of a text in pairs. -/
def decode (seen : List Char) : List Nat → Option (List Char)
  | [] => some seen.reverse
  | [code] =>
    if isHighSurrogate code || isLowSurrogate code then none
    else some (Char.ofNat code :: seen).reverse
  | high :: low :: rest =>
    if isHighSurrogate high then
      if isLowSurrogate low then
        decode (Char.ofNat (0x10000 + (high - 0xD800) * 0x400 + (low - 0xDC00)) :: seen) rest
      else none
    else if isLowSurrogate high then none
    else decode (Char.ofNat high :: seen) (low :: rest)

def dropSign : List Char → List Char
  | '+' :: rest => rest
  | '-' :: rest => rest
  | rest => rest

def readExponent (text : List Char) : Option (Int × List Char) :=
  let digits := (dropSign text).takeWhile Char.isDigit
  let value : Int := Decimal.natOfDigits digits
  if digits.isEmpty then none
  else some (if ['-'].isPrefixOf text then -value else value, (dropSign text).dropWhile Char.isDigit)

def readScaled (number : Decimal) : List Char → Option (Token × List Char)
  | [] => some (.number number, [])
  | c :: rest =>
    if c = 'e' ∨ c = 'E' then
      (readExponent rest).map fun (exponent, after) =>
        (.number { number with exponent := some exponent }, after)
    else some (.number number, c :: rest)

def readPoint (negative : Bool) (whole : Nat) : List Char → Option (Token × List Char)
  | '.' :: rest =>
    let digits := rest.takeWhile Char.isDigit
    if digits.isEmpty then none
    else readScaled ⟨negative, whole, some digits, none⟩ (rest.dropWhile Char.isDigit)
  | rest => readScaled ⟨negative, whole, none, none⟩ rest

def readNumber (negative : Bool) : List Char → Option (Token × List Char)
  | [] => none
  | '0' :: rest => readPoint negative 0 rest
  | c :: rest =>
    if c.isDigit then
      readPoint negative (Decimal.natOfDigits (c :: rest.takeWhile Char.isDigit))
        (rest.dropWhile Char.isDigit)
    else none

def mark? : Char → Option Token
  | '[' => some .arrayOpen
  | ']' => some .arrayClose
  | '\x7b' => some .objectOpen
  | '\x7d' => some .objectClose
  | ',' => some .comma
  | ':' => some .colon
  | _ => none

def readWord : List Char → Option (Token × List Char)
  | 'n' :: 'u' :: 'l' :: 'l' :: rest => some (.null, rest)
  | 't' :: 'r' :: 'u' :: 'e' :: rest => some (.bool true, rest)
  | 'f' :: 'a' :: 'l' :: 's' :: 'e' :: rest => some (.bool false, rest)
  | _ => none

def readText (text : List Char) : Option (Token × List Char) :=
  (readCodes [] text).map fun (codes, after) =>
    (.text ((decode [] codes).map String.ofList), after)

def split? : List Char → Option (Token × List Char)
  | [] => none
  | c :: rest =>
    match mark? c with
    | some token => some (token, rest)
    | none =>
      if c = '\x22' then readText rest
      else if c = '-' then readNumber true rest
      else if c.isDigit then readNumber false (c :: rest)
      else readWord (c :: rest)

theorem readCodes_length {seen codes : List Nat} {text rest : List Char}
    (read : readCodes seen text = some (codes, rest)) : rest.length ≤ text.length := by
  fun_induction readCodes seen text <;> simp_all <;> omega

theorem dropSign_length (text : List Char) : (dropSign text).length ≤ text.length := by
  unfold dropSign
  split <;> simp

theorem readExponent_length {text rest : List Char} {exponent : Int}
    (read : readExponent text = some (exponent, rest)) : rest.length ≤ text.length := by
  simp only [readExponent] at read
  split at read
  · cases read
  · obtain ⟨_, rfl⟩ := Prod.mk.inj (Option.some.inj read)
    exact Nat.le_trans (List.dropWhile_sublist _).length_le (dropSign_length text)

theorem readScaled_length {number : Decimal} {text rest : List Char} {token : Token}
    (read : readScaled number text = some (token, rest)) : rest.length ≤ text.length := by
  unfold readScaled at read
  split at read
  · obtain ⟨_, rfl⟩ := Prod.mk.inj (Option.some.inj read)
    exact Nat.le_refl _
  · split at read
    · obtain ⟨⟨exponent, after⟩, found, same⟩ := Option.map_eq_some_iff.mp read
      obtain ⟨_, rfl⟩ := Prod.mk.inj same
      exact Nat.le_succ_of_le (readExponent_length found)
    · obtain ⟨_, rfl⟩ := Prod.mk.inj (Option.some.inj read)
      exact Nat.le_refl _

theorem readPoint_length {negative : Bool} {whole : Nat} {text rest : List Char} {token : Token}
    (read : readPoint negative whole text = some (token, rest)) : rest.length ≤ text.length := by
  unfold readPoint at read
  split at read
  · simp only at read
    split at read
    · cases read
    · exact Nat.le_succ_of_le (Nat.le_trans (readScaled_length read) (List.dropWhile_sublist _).length_le)
  · exact readScaled_length read

theorem readNumber_length {negative : Bool} {text rest : List Char} {token : Token}
    (read : readNumber negative text = some (token, rest)) : rest.length < text.length := by
  unfold readNumber at read
  split at read
  · cases read
  · exact Nat.lt_succ_of_le (readPoint_length read)
  · split at read
    · exact Nat.lt_succ_of_le (Nat.le_trans (readPoint_length read) (List.dropWhile_sublist _).length_le)
    · cases read

theorem readWord_length {text rest : List Char} {token : Token}
    (read : readWord text = some (token, rest)) : rest.length < text.length := by
  unfold readWord at read
  split at read <;> simp_all <;> omega

theorem readText_length {text rest : List Char} {token : Token}
    (read : readText text = some (token, rest)) : rest.length ≤ text.length := by
  obtain ⟨⟨codes, after⟩, found, same⟩ := Option.map_eq_some_iff.mp read
  obtain ⟨_, rfl⟩ := Prod.mk.inj same
  exact readCodes_length found

theorem split?_length {text rest : List Char} {token : Token}
    (read : split? text = some (token, rest)) : rest.length < text.length := by
  unfold split? at read
  split at read
  · cases read
  · split at read
    · obtain ⟨_, rfl⟩ := Prod.mk.inj (Option.some.inj read)
      exact Nat.lt_succ_self _
    · split at read
      · exact Nat.lt_succ_of_le (readText_length read)
      · split at read
        · exact Nat.lt_succ_of_lt (readNumber_length read)
        · split at read
          · exact readNumber_length read
          · exact readWord_length read

def readAll (found : Array Token) (text : List Char) : Option (List Token) :=
  match blank : text.dropWhile isSpace with
  | [] => some found.toList
  | c :: rest =>
    match read : split? (c :: rest) with
    | none => none
    | some (token, after) =>
      have : after.length < text.length := by
        have shorter := (text.dropWhile_sublist isSpace).length_le
        have split := split?_length read
        rw [blank] at shorter
        omega
      readAll (found.push token) after
termination_by text.length

def hexDigit (n : Nat) : Char :=
  (Nat.toDigits 16 n).headD '0'

def escape (c : Char) : List Char :=
  if c = '\x22' then ['\\', '\x22']
  else if c = '\\' then ['\\', '\\']
  else if c = '\x08' then ['\\', 'b']
  else if c = '\t' then ['\\', 't']
  else if c = '\n' then ['\\', 'n']
  else if c = '\x0c' then ['\\', 'f']
  else if c = '\r' then ['\\', 'r']
  else if c.toNat < 0x20 then ['\\', 'u', '0', '0', hexDigit (c.toNat / 16), hexDigit (c.toNat % 16)]
  else [c]

def quote (text : String) : List Char :=
  '\x22' :: (text.toList.flatMap escape ++ ['\x22'])

def chars : Token → List Char
  | .arrayOpen => ['[']
  | .arrayClose => [']']
  | .objectOpen => ['\x7b']
  | .objectClose => ['\x7d']
  | .comma => [',']
  | .colon => [':']
  | .null => "null".toList
  | .bool true => "true".toList
  | .bool false => "false".toList
  | .number value => value.chars
  | .text (some value) => quote value
  -- the least text without a value
  | .text none => '\x22' :: ("\\ud800".toList ++ ['\x22'])

def isPlain : Token → Bool
  | .number value => value.isFinite
  | .text value => value.isSome
  | _ => true

/-- How deeply the tokens nest, when `depth` arrays and objects are open and `deepest` were. -/
def nesting (depth deepest : Nat) : List Token → Nat
  | [] => deepest
  | .arrayOpen :: rest | .objectOpen :: rest => nesting (depth + 1) (max deepest (depth + 1)) rest
  | .arrayClose :: rest | .objectClose :: rest => nesting (depth - 1) deepest rest
  | _ :: rest => nesting depth deepest rest

end Token

end LispIndex.Json
