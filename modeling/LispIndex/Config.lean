import LispIndex.Files
import LispIndex.Keywords

/-!
Configuration: how scope trees are cached and where keywords come from, written in JSON. Each of
the two records may be an object, where what is not given keeps its default and what is not known
is passed over, or an array of its fields in order.
-/

namespace LispIndex

structure CacheSettings where
  enabled : Bool := true
  maxEntries : Nat := 1000
  /-- Whether the document being edited is never served from the cache. -/
  rebuildActive : Bool := true
deriving DecidableEq, Inhabited

inductive KeywordSource where
  | builtin
  | file (path : String)
  | inline (names : List String)
deriving DecidableEq, Inhabited

structure Config where
  cache : CacheSettings := {}
  keywords : KeywordSource := .builtin
deriving DecidableEq, Inhabited

namespace Config

abbrev Fields := List (String × Json)

def fields? (members : List (Option String × Json)) : Option Fields :=
  members.mapM fun (key, value) => key.map (·, value)

/-- A field, which may be given once and has a default. -/
def field? {α : Type} (fields : Fields) (key : String) (default : α) (decode : Json → Option α) :
    Option α :=
  match fields.filter (·.1 == key) with
  | [] => some default
  | [(_, value)] => decode value
  | _ => none

def item? {α : Type} (items : List Json) (place : Nat) (default : α) (decode : Json → Option α) :
    Option α :=
  match items[place]? with
  | none => some default
  | some value => decode value

def bool? : Json → Option Bool
  | .bool value => some value
  | _ => none

def count? : Json → Option Nat
  | .number value => value.toNat?.filter (· < UInt64.size)
  | _ => none

def text? : Json → Option String
  | .text value => value
  | _ => none

def cache? : Json → Option CacheSettings
  | .object members => do
    let fields ← fields? members
    let enabled ← field? fields "enabled" true bool?
    let maxEntries ← field? fields "max_entries" 1000 count?
    let rebuildActive ← field? fields "always_rebuild_active" true bool?
    return ⟨enabled, maxEntries, rebuildActive⟩
  | .array items => do
    if items.length > 3 then none
    let enabled ← item? items 0 true bool?
    let maxEntries ← item? items 1 1000 count?
    let rebuildActive ← item? items 2 true bool?
    return ⟨enabled, maxEntries, rebuildActive⟩
  | _ => none

def keywords? : Json → Option KeywordSource
  | .text (some "builtin") => some .builtin
  | .object [(some "builtin", .null)] => some .builtin
  | .object [(some "file", .text (some path))] => some (.file path)
  | .object [(some "inline", .array items)] => (items.mapM text?).map .inline
  | _ => none

def ofJson? : Json → Option Config
  | .object members => do
    let fields ← fields? members
    let cache ← field? fields "cache" {} cache?
    let keywords ← field? fields "keywords" .builtin keywords?
    return ⟨cache, keywords⟩
  | .array items => do
    if items.length > 2 then none
    let cache ← item? items 0 {} cache?
    let keywords ← item? items 1 .builtin keywords?
    return ⟨cache, keywords⟩
  | _ => none

def cacheJson (settings : CacheSettings) : Json :=
  .ofMembers [
    ("enabled", .bool settings.enabled),
    ("max_entries", .ofNat settings.maxEntries),
    ("always_rebuild_active", .bool settings.rebuildActive)]

def keywordsJson : KeywordSource → Json
  | .builtin => .ofString "builtin"
  | .file path => .ofMembers [("file", .ofString path)]
  | .inline names => .ofMembers [("inline", .array (names.map .ofString))]

def toJson (c : Config) : Json :=
  .ofMembers [("cache", cacheJson c.cache), ("keywords", keywordsJson c.keywords)]

def toText (c : Config) : String :=
  c.toJson.compact

/-- Settings under which nothing could be cached are refused. -/
def validate (c : Config) : Except Failure Unit :=
  if c.cache.enabled && c.cache.maxEntries == 0 then .error .cacheWithoutEntries else .ok ()

def ofText (text : String) : Except Failure Config :=
  match (Json.read? text).bind ofJson? with
  | none => .error .json
  | some config => do
    config.validate
    return config

variable {m : Type → Type} [Monad m]

def ofFile (files : Files m) (path : String) : ExceptT Failure m Config := do
  ExceptT.mk (pure (ofText (← files.readText path)))

def loadKeywords (files : Files m) (c : Config) : ExceptT Failure m Keywords :=
  match c.keywords with
  | .builtin => return .builtin
  | .file path => do ExceptT.mk (pure (Keywords.ofText (← files.readText path)))
  | .inline names => return Keywords.builtin.add names

end Config

end LispIndex
