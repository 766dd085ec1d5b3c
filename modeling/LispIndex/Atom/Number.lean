/-!
Number literals: an optional minus sign, digits, an optional fraction and an optional exponent. A
text is read as its UTF-8 bytes, from place to place.
-/

namespace LispIndex.Number

inductive Stop where
  | noNumber
  /-- Bytes were asked for from a place behind the last one. -/
  | beyondEnd
deriving DecidableEq

def isDigit (byte : UInt8) : Bool :=
  '0'.toUInt8 ≤ byte && byte ≤ '9'.toUInt8

def stands (marks : List Char) (bytes : List UInt8) (place : Nat) : Bool :=
  bytes[place]?.any fun byte => marks.any (·.toUInt8 == byte)

def skip (marks : List Char) (bytes : List UInt8) (place : Nat) : Nat :=
  if stands marks bytes place then place + 1 else place

/-- Moves behind the digits from a place on, of which there has to be one. -/
def digits (bytes : List UInt8) (place : Nat) : Except Stop Nat :=
  if place ≤ bytes.length then
    let count := ((bytes.drop place).takeWhile isDigit).length
    if count = 0 then .error .noNumber else .ok (place + count)
  else .error .beyondEnd

/-- Moves behind a fraction, if there is one; a point without digits is refused. -/
def fraction (bytes : List UInt8) (place : Nat) : Except Stop Nat :=
  if stands ['.'] bytes place then digits bytes (place + 1) else .ok place

def exponent (bytes : List UInt8) (place : Nat) : Except Stop Nat :=
  if stands ['e', 'E'] bytes place then digits bytes (skip ['+', '-'] bytes (place + 1))
  else .ok place

def read (bytes : List UInt8) : Except Stop Unit := do
  let place ← digits bytes (skip ['-'] bytes 0)
  let place ← fraction bytes place
  let place ← exponent bytes place
  if place = bytes.length then return else throw .noNumber

def bytes (text : List Char) : List UInt8 :=
  text.flatMap String.utf8EncodeChar

def isNumber (text : List Char) : Bool :=
  (read (bytes text)).isOk

end LispIndex.Number
