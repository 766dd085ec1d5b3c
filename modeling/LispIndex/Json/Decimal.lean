import LispIndex.Rounding

/-!
Number literals of JSON: the digits as they are written, and whether the magnitude fits a double.
-/

namespace LispIndex.Json

structure Decimal where
  negative : Bool
  whole : Nat
  /-- The digits behind the point, of which there is at least one. -/
  fraction : Option (List Char)
  exponent : Option Int
deriving DecidableEq

namespace Decimal

def ofNat (n : Nat) : Decimal :=
  ⟨false, n, none, none⟩

def toNat? : Decimal → Option Nat
  | ⟨false, whole, none, none⟩ => some whole
  | _ => none

def digitValue (c : Char) : Nat :=
  c.toNat - '0'.toNat

def natOfDigits (digits : List Char) : Nat :=
  digits.foldl (fun n c => 10 * n + digitValue c) 0

def chars (d : Decimal) : List Char :=
  (if d.negative then ['-'] else []) ++ (toString d.whole).toList ++
    (match d.fraction with
      | some digits => '.' :: digits
      | none => []) ++
    (match d.exponent with
      | some e => 'e' :: (toString e).toList
      | none => [])

/-- A significand is read as long as it fits 64 bits. -/
def append? (significand : Nat) (digit : Char) : Option Nat :=
  let n := 10 * significand + digitValue digit
  if n < UInt64.size then some n else none

/-- The significand of the whole part and how many of its digits are left over. -/
def readWhole (significand dropped : Nat) : List Char → Nat × Nat
  | [] => (significand, dropped)
  | c :: rest =>
    match if dropped = 0 then append? significand c else none with
    | some n => readWhole n 0 rest
    | none => readWhole significand (dropped + 1) rest

def readFraction (significand taken : Nat) : List Char → Nat × Nat
  | [] => (significand, taken)
  | c :: rest =>
    match append? significand c with
    | some n => readFraction n (taken + 1) rest
    | none => (significand, taken)

/-- Whether significand times power of ten, both rounded, stays below the largest double. -/
def isFinite (d : Decimal) : Bool :=
  let (whole, dropped) := readWhole 0 0 (toString d.whole).toList
  let (significand, taken) := readFraction whole 0 (d.fraction.getD [])
  let exponent : Int := d.exponent.getD 0 + dropped - taken
  significand == 0 || exponent < 0 ||
    (exponent ≤ 308 &&
      Rounding.significant (Rounding.significant significand 1 *
        Rounding.significant (Nat.pow 10 exponent.toNat) 1) 1 < Nat.pow 2 1024)

end Decimal

end LispIndex.Json
