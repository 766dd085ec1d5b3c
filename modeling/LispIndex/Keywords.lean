import LispIndex.Failure
import LispIndex.Json
import LispIndex.Keywords.Builtin
import LispIndex.Text.Blank
import LispIndex.Text.Case

/-!
Keywords: the names that belong to the language. A set of them starts from the built-in names or
from nothing and grows by names that are given directly or listed in a JSON text.
-/

namespace LispIndex

/-- Tells of a name, which has to be lowercased, whether it belongs to the language. -/
structure KeywordOracle where
  isNative : String → Bool

structure Keywords where
  hasBuiltin : Bool
  added : Std.TreeSet String

namespace Keywords

def builtin : Keywords := ⟨true, ∅⟩

def empty : Keywords := ⟨false, ∅⟩

def starts (k : Keywords) (name : String) : Bool :=
  k.hasBuiltin && builtinSet.contains name

def isNative (k : Keywords) (name : String) : Bool :=
  k.hasBuiltin && (commonNames.contains name || builtinSet.contains name) || k.added.contains name

instance : Coe Keywords KeywordOracle where
  coe k := ⟨k.isNative⟩

def normalize (name : String) : String :=
  Text.lower (String.ofList (Text.trim name.toList))

def add (k : Keywords) (names : List String) : Keywords :=
  { k with added := names.foldl (fun added name => added.insert (normalize name)) k.added }

def size (k : Keywords) : Nat :=
  (if k.hasBuiltin then builtinNames.length else 0) + k.added.toList.countP (!k.starts ·)

def texts (items : List Json) : List String :=
  items.filterMap fun
    | .text value => value
    | _ => none

def keysIn (members : List (Option String × Json)) (key : String) : Option (List String) :=
  match Json.member? members key with
  | some (.object inner) => some (inner.filterMap (·.1))
  | _ => none

def textsIn (members : List (Option String × Json)) (key : String) : Option (List String) :=
  match Json.member? members key with
  | some (.array items) => some (texts items)
  | _ => none

def keyedMembers : List String :=
  ["functions", "ambiguousFunctions", "enumerators"]

def arrayMember : String :=
  "internalLispFuncs"

/-- Adds the names that a member of a help index has, if it is there and has the right shape, and
notes that there was one. -/
def addMember (state : Bool × Keywords) : Option (List String) → Bool × Keywords
  | some names => (true, state.2.add names)
  | none => state

def addIndex (k : Keywords) (members : List (Option String × Json)) : Bool × Keywords :=
  (keyedMembers.map (keysIn members) ++ [textsIn members arrayMember]).foldl addMember (false, k)

/-- Adds the names of a keyword list: an array of names, or a help index. -/
def merge (k : Keywords) : Json → Except Failure Unit × Keywords
  | .array items => (.ok (), k.add (texts items))
  | .object members =>
    let (recognized, merged) := k.addIndex members
    (if recognized then .ok () else .error .keywordMembers, merged)
  | _ => (.error .keywordShape, k)

/-- Adds the names of a keyword list in JSON and counts those that were not added before. What a
failure leaves is part of the result. -/
def load (k : Keywords) (text : String) : Except Failure Nat × Keywords :=
  match Json.readPlain? text with
  | none => (.error .json, k)
  | some value =>
    let (outcome, merged) := k.merge value
    (outcome.map fun _ => merged.added.size - k.added.size, merged)

def ofText (text : String) : Except Failure Keywords :=
  let (outcome, loaded) := builtin.load text
  outcome.map fun _ => loaded

end Keywords

def KeywordOracle.builtin : KeywordOracle := Keywords.builtin

end LispIndex
