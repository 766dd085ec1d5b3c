import LispIndex.Source

/-!
Pools of sources: those open in an editor, those of a project and those of the workspace folder. A
source may be in several of them; the open one counts first.
-/

namespace LispIndex

/-- Sources by their key, in the order in which the keys came in. -/
structure Pool where
  entries : List (String × Source)

namespace Pool

def empty : Pool := ⟨[]⟩

/-- Adds a source; one under the same key is replaced in its place. -/
def insert (p : Pool) (s : Source) : Pool :=
  if p.entries.any (·.1 == s.key) then
    ⟨p.entries.map fun entry => if entry.1 = s.key then (s.key, s) else entry⟩
  else ⟨p.entries ++ [(s.key, s)]⟩

def get? (p : Pool) (key : String) : Option Source :=
  p.entries.lookup key

def erase (p : Pool) (key : String) : Pool :=
  ⟨p.entries.filter (·.1 != key)⟩

def sources (p : Pool) : List Source :=
  p.entries.map (·.2)

end Pool

inductive PoolName where
  | opened
  | project
  | workspace
deriving DecidableEq

structure Pools where
  opened : Pool
  project : Pool
  workspace : Pool

namespace Pools

def empty : Pools := ⟨.empty, .empty, .empty⟩

def insert (p : Pools) (s : Source) : PoolName → Pools
  | .opened => { p with opened := p.opened.insert s }
  | .project => { p with project := p.project.insert s }
  | .workspace => { p with workspace := p.workspace.insert s }

def close (p : Pools) (path : String) : Option Source × Pools :=
  let key := normalizePath path
  (p.opened.get? key, { p with opened := p.opened.erase key })

def entries (p : Pools) : List (String × Source) :=
  p.opened.entries ++ p.project.entries ++ p.workspace.entries

def get? (p : Pools) (path : String) : Option Source :=
  p.entries.lookup (normalizePath path)

/-- The sources in which a name occurs. Each key counts once, in the first pool where its source
has the name. -/
def sharing (p : Pools) (name : String) : List Source :=
  let key := Text.lower name
  (p.entries.foldl (fun (found : List (String × Source)) entry =>
    if entry.2.hasSymbol key && !found.any (·.1 == entry.1) then found ++ [entry] else found)
    []).map (·.2)

end Pools

end LispIndex
