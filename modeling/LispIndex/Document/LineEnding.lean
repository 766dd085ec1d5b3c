/-!
Line endings: a text that holds a carriage return directly before a line feed is taken to end its
lines with both.
-/

namespace LispIndex

inductive LineEnding where
  | lf
  | crlf
deriving DecidableEq, Inhabited

namespace LineEnding

def detect : List Char → LineEnding
  | '\r' :: '\n' :: _ => .crlf
  | _ :: rest => detect rest
  | [] => .lf

def name : LineEnding → String
  | .lf => "Lf"
  | .crlf => "CrLf"

def chars : LineEnding → List Char
  | .lf => ['\n']
  | .crlf => ['\r', '\n']

end LineEnding

end LispIndex
