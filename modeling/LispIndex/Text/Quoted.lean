import LispIndex.Text.Case
import LispIndex.Text.Printable

/-!
Quoted texts, for messages in which every character has to show. What would not show by itself is
written by its code.
-/

namespace LispIndex.Text

def isVisible (c : Char) : Bool :=
  0x20 ≤ c.toNat &&
    (c.toNat < 0x7F || !(inRanges blindRanges c || inRanges graphemeExtendRanges c))

def quotedChar (c : Char) : List Char :=
  if c = '\x22' then ['\\', '\x22']
  else if c = '\\' then ['\\', '\\']
  else if c = '\n' then ['\\', 'n']
  else if c = '\r' then ['\\', 'r']
  else if c = '\t' then ['\\', 't']
  else if c = '\x00' then ['\\', '0']
  else if isVisible c then [c]
  else ['\\', 'u', '\x7b'] ++ Nat.toDigits 16 c.toNat ++ ['\x7d']

def quoted (text : String) : String :=
  String.ofList ('\x22' :: (text.toList.flatMap quotedChar ++ ['\x22']))

end LispIndex.Text
