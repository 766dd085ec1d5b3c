import LispIndex.Scope

/-!
Resolving names. A name belongs to the nearest host around it that binds it, and to the document
when none does.
-/

namespace LispIndex.ScopeTree

/-- The reference made for an atom among those from `low` up to `high`. References stand in the
order of their atoms, so that half of them drop out at each step. -/
def searchReference (t : ScopeTree) (index low high : Nat) : Option Nat :=
  if low < high then
    let middle := (low + high) / 2
    match t.references[middle]? with
    | none => none
    | some r =>
      if r.index = index then some middle
      else if r.index < index then t.searchReference index (middle + 1) high
      else t.searchReference index low middle
  else none
termination_by high - low

def referenceAt? (t : ScopeTree) (index : Nat) : Option Nat :=
  t.searchReference index 0 t.references.size

def binds (t : ScopeTree) (h : Host) (name : String) : Bool :=
  h.items.any fun
    | .reference id => t.references[id]?.any fun r => r.isLocal && r.name == name
    | .host _ => false

def binderFrom (t : ScopeTree) (name : String) (host : Nat) : Nat :=
  match t.hosts[host]? with
  | none => 0
  | some h =>
    if h.kind = .root || t.binds h name then host
    else
      match h.parent with
      | none => host
      | some parent => if parent < host then t.binderFrom name parent else 0
termination_by host

def binder (t : ScopeTree) (host : Nat) (key : String) : Nat :=
  t.binderFrom (Text.lower key) host

def referenceBinder? (t : ScopeTree) (id : Nat) : Option Nat :=
  t.references[id]?.map fun r => t.binder r.owner r.name

def hostName? (t : ScopeTree) (host : Nat) : Option String :=
  t.hosts[host]?.bind fun h => h.named.bind fun id => t.references[id]?.map Reference.name

/-- References by name, the names in the order of their first reference. -/
abbrev Gathered := List (String × List Nat)

def Gathered.add (name : String) (id : Nat) : Gathered → Gathered
  | [] => [(name, [id])]
  | (other, ids) :: rest =>
    if other = name then (other, ids ++ [id]) :: rest else (other, ids) :: Gathered.add name id rest

def gather (t : ScopeTree) (found : Gathered) (id : Nat) : Gathered :=
  match t.references[id]? with
  | some r => found.add r.name id
  | none => found

/-- Everything inside a host; the name of a definition comes before its contents. -/
def gatherFrom (t : ScopeTree) (found : Gathered) (host : Nat) : Gathered :=
  match t.hosts[host]? with
  | none => found
  | some h =>
    h.items.foldl (fun found item =>
      match item with
      | .reference id => t.gather found id
      | .host child =>
        if host < child ∧ child < t.hosts.size then
          t.gatherFrom (((t.hosts[child]?.bind Host.named).map (t.gather found)).getD found) child
        else found) found
termination_by t.hosts.size - host

def symbolsUnder (t : ScopeTree) (host : Nat) : Gathered :=
  t.gatherFrom [] host

/-- References of two trees are the same if they stand for the same atom of the same file. -/
def sameReference (t u : ScopeTree) (left right : Reference) : Bool :=
  t.file == u.file && left.index == right.index

/-- Hosts of two trees are the same if they cover the same range of the same file. -/
def sameHost (t u : ScopeTree) (left right : Host) : Bool :=
  t.file == u.file && left.range == right.range

end LispIndex.ScopeTree
