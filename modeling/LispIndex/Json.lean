import LispIndex.Json.Token

/-!
JSON values, between tokens and the data that is read from them. A reader keeps the arrays and
objects that are still open in a stack, so no nesting is too deep for it.
-/

namespace LispIndex

inductive Json where
  | null
  | bool (value : Bool)
  | number (value : Json.Decimal)
  | text (value : Option String)
  | array (items : List Json)
  | object (members : List (Option String × Json))

namespace Json

/-- An array or object around a value that is being read, the latest part first. -/
inductive Frame where
  | array (items : List Json)
  | member (members : List (Option String × Json)) (key : Option String)

inductive Reader where
  | needsValue (outer : List Frame)
  | opensArray (outer : List Frame)
  /-- A key has to come, or the end of an object that has no members. -/
  | needsKey (members : List (Option String × Json)) (outer : List Frame)
  | needsColon (members : List (Option String × Json)) (key : Option String) (outer : List Frame)
  | done (value : Json) (outer : List Frame)

namespace Reader

def start (outer : List Frame) : Token → Option Reader
  | .null => some (.done .null outer)
  | .bool value => some (.done (.bool value) outer)
  | .number value => some (.done (.number value) outer)
  | .text value => some (.done (.text value) outer)
  | .arrayOpen => some (.opensArray outer)
  | .objectOpen => some (.needsKey [] outer)
  | _ => none

def step : Reader → Token → Option Reader
  | .needsValue outer, token => start outer token
  | .opensArray outer, .arrayClose => some (.done (.array []) outer)
  | .opensArray outer, token => start (.array [] :: outer) token
  | .needsKey members outer, .text key => some (.needsColon members key outer)
  | .needsKey [] outer, .objectClose => some (.done (.object []) outer)
  | .needsColon members key outer, .colon => some (.needsValue (.member members key :: outer))
  | .done value (.array items :: outer), .comma =>
    some (.needsValue (.array (value :: items) :: outer))
  | .done value (.array items :: outer), .arrayClose =>
    some (.done (.array (value :: items).reverse) outer)
  | .done value (.member members key :: outer), .comma =>
    some (.needsKey ((key, value) :: members) outer)
  | .done value (.member members key :: outer), .objectClose =>
    some (.done (.object ((key, value) :: members).reverse) outer)
  | _, _ => none

def result? : Reader → Option Json
  | .done value [] => some value
  | _ => none

end Reader

def ofTokens? (tokens : List Token) : Option Json :=
  (tokens.foldlM Reader.step (.needsValue [])).bind Reader.result?

/-- Reads the structure of a text; texts and numbers in it may be without a value. -/
def read? (text : String) : Option Json :=
  (Token.readAll #[] text.toList).bind ofTokens?

/-- Reads a text all of whose parts have a value and which nests no deeper than 127 levels. -/
def readPlain? (text : String) : Option Json :=
  ((Token.readAll #[] text.toList).filter fun tokens =>
    tokens.all Token.isPlain && Token.nesting 0 0 tokens ≤ 127).bind ofTokens?

/-- The member of an object with the given key; of several, the last. -/
def member? (members : List (Option String × Json)) (key : String) : Option Json :=
  (members.reverse.find? (·.1 == some key)).map (·.2)

mutual

def tokens : Json → List Token
  | .null => [.null]
  | .bool value => [.bool value]
  | .number value => [.number value]
  | .text value => [.text value]
  | .array items => .arrayOpen :: (itemTokens items ++ [.arrayClose])
  | .object members => .objectOpen :: (memberTokens members ++ [.objectClose])

def itemTokens : List Json → List Token
  | [] => []
  | [item] => tokens item
  | item :: items => tokens item ++ .comma :: itemTokens items

def memberTokens : List (Option String × Json) → List Token
  | [] => []
  | [(key, value)] => .text key :: .colon :: tokens value
  | (key, value) :: members => .text key :: .colon :: (tokens value ++ .comma :: memberTokens members)

end

def compact (value : Json) : String :=
  String.ofList (value.tokens.flatMap Token.chars)

def newLine (indent : Nat) : List Char :=
  '\n' :: List.replicate (2 * indent) ' '

def layout (indent : Nat) : List Token → List Char
  | [] => []
  | .arrayOpen :: .arrayClose :: rest => '[' :: ']' :: layout indent rest
  | .objectOpen :: .objectClose :: rest => '\x7b' :: '\x7d' :: layout indent rest
  | .arrayOpen :: rest => '[' :: (newLine (indent + 1) ++ layout (indent + 1) rest)
  | .objectOpen :: rest => '\x7b' :: (newLine (indent + 1) ++ layout (indent + 1) rest)
  | .arrayClose :: rest => newLine (indent - 1) ++ ']' :: layout (indent - 1) rest
  | .objectClose :: rest => newLine (indent - 1) ++ '\x7d' :: layout (indent - 1) rest
  | .comma :: rest => ',' :: (newLine indent ++ layout indent rest)
  | .colon :: rest => ':' :: ' ' :: layout indent rest
  | token :: rest => token.chars ++ layout indent rest

def pretty (value : Json) : String :=
  String.ofList (layout 0 value.tokens)

def ofNat (n : Nat) : Json :=
  .number (.ofNat n)

def ofString (s : String) : Json :=
  .text (some s)

def ofMembers (members : List (String × Json)) : Json :=
  .object (members.map fun (key, value) => (some key, value))

end Json

end LispIndex
