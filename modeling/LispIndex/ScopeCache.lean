import LispIndex.Config
import LispIndex.Rounding
import LispIndex.Scope.Resolve
import LispIndex.Source
import LispIndex.Text.Quoted

/-!
A cache of scope trees, one for each source key. Every tree that is built gets a number, by which
holders of it can ask whether it is still current: it is disposed of when another tree takes its
place or it leaves the cache. Entries are kept in the order in which they were built. That order
stands for the times of the builds, which are not kept themselves: the entry that was built first is
the oldest one, also where two builds fall on the same time.
-/

namespace LispIndex

structure NumberedTree where
  number : Nat
  tree : ScopeTree

structure ScopeCache where
  settings : CacheSettings
  keywords : KeywordOracle := .builtin
  active : Option String := none
  /-- Oldest first. -/
  entries : List (String × NumberedTree) := []
  built : Nat := 0
  disposed : List Nat := []
  hits : Nat := 0
  misses : Nat := 0
  evictions : Nat := 0

namespace ScopeCache

def ofConfig {m : Type → Type} [Monad m] (files : Files m) (config : Config) :
    ExceptT Failure m ScopeCache := do
  ExceptT.mk (pure config.validate)
  return { settings := config.cache, keywords := ← config.loadKeywords files }

def setActive (c : ScopeCache) (path : Option String) : ScopeCache :=
  { c with active := path.map normalizePath }

def isValid (c : ScopeCache) (number : Nat) : Bool :=
  !c.disposed.contains number

def dispose (c : ScopeCache) (number : Nat) : ScopeCache :=
  { c with disposed := number :: c.disposed }

def entry? (c : ScopeCache) (key : String) : Option NumberedTree :=
  c.entries.lookup key

def cached? (c : ScopeCache) (path : String) : Option NumberedTree :=
  c.entry? (normalizePath path)

def drop (c : ScopeCache) (key : String) : ScopeCache :=
  match c.entry? key with
  | none => c
  | some t => { c.dispose t.number with entries := c.entries.filter (·.1 != key) }

def evict (c : ScopeCache) : ScopeCache :=
  match c.entries with
  | [] => c
  | (key, _) :: _ => { c.drop key with evictions := c.evictions + 1 }

/-- Puts a tree under a key in place of what was there, making room first for a key that is new. -/
def store (c : ScopeCache) (key : String) (t : NumberedTree) : ScopeCache :=
  let room :=
    if (c.entry? key).isNone && decide (c.settings.maxEntries ≤ c.entries.length) then c.evict else c
  let free := room.drop key
  { free with entries := free.entries ++ [(key, t)] }

def current? (c : ScopeCache) (key : String) : Option NumberedTree :=
  if c.settings.enabled && !(c.settings.rebuildActive && c.active == some key) then
    (c.entry? key).filter fun t => c.isValid t.number
  else none

def rebuild (c : ScopeCache) (s : Source) : NumberedTree × ScopeCache :=
  let t : NumberedTree := ⟨c.built, .build c.keywords.isNative s.path s.document⟩
  let counted := { c with built := c.built + 1, misses := c.misses + 1 }
  (t, if c.settings.enabled then counted.store s.key t else counted)

def fetch (c : ScopeCache) (s : Source) (force : Bool) : NumberedTree × ScopeCache :=
  match if force then none else c.current? s.key with
  | some t => (t, { c with hits := c.hits + 1 })
  | none => c.rebuild s

def invalidate (c : ScopeCache) : Nat × ScopeCache :=
  (c.entries.length,
    { c with entries := [], disposed := c.entries.map (·.2.number) ++ c.disposed })

def invalidatePath (c : ScopeCache) (path : String) : Bool × ScopeCache :=
  let key := normalizePath path
  ((c.entry? key).isSome, c.drop key)

/-- Whether a name has an exported occurrence that no form around it binds. The question builds the
tree anew if there is an exported occurrence at all. -/
def exportsGlobally (c : ScopeCache) (s : Source) (name : String) : Bool × ScopeCache :=
  match s.exportsOf name with
  | [] => (false, c)
  | exported =>
    let (t, next) := c.fetch s true
    (exported.any fun index =>
      ((t.tree.referenceAt? index).bind t.tree.referenceBinder?) == some 0, next)

def decimalText (millionths : Nat) : String :=
  let decimals := toString (millionths % 1000000)
  toString (millionths / 1000000) ++ "." ++
    String.ofList (List.replicate (6 - decimals.length) '0') ++ decimals

/-- The share of fetches that were served without building a tree, in percent to six decimals. The
share and the percentage are rounded to 53 significant bits each, both as multiples of a power of
two that is finer than either. -/
def hitRate (c : ScopeCache) : String :=
  let fetches := c.hits + c.misses
  let one := Nat.pow 2 200
  let share := if fetches = 0 then 0 else Rounding.significant (c.hits * one) fetches
  decimalText (Rounding.nearest (Rounding.significant (100 * share) 1 * 1000000) one)

def settingsText (settings : CacheSettings) : String :=
  "CacheConfig \x7b enabled: " ++ toString settings.enabled ++ ", max_entries: " ++
    toString settings.maxEntries ++ ", always_rebuild_active: " ++ toString settings.rebuildActive ++
    " \x7d"

def text (c : ScopeCache) : String :=
  let active := match c.active with
    | some key => "Some(" ++ Text.quoted key ++ ")"
    | none => "None"
  "SymbolBroker \x7b config: " ++ settingsText c.settings ++ ", entries: " ++
    toString c.entries.length ++ ", active: " ++ active ++ " \x7d"

end ScopeCache

end LispIndex
