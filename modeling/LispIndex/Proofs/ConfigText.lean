import LispIndex.Config
import LispIndex.Proofs.JsonText
import Mathlib.Algebra.Group.Nat.Defs

/-!
Configurations as texts. What is written for a configuration is read as that configuration, and
refused where it could cache nothing.
-/

namespace LispIndex.Config

private theorem fields?_ofMembers (fields : Fields) :
    fields? (fields.map fun (key, value) => (some key, value)) = some fields := by
  rw [fields?]
  induction fields with
  | nil => rfl
  | cons field rest ih =>
    rw [List.map_cons, List.mapM_cons, ih]
    rfl

private theorem text?_names (names : List String) :
    (names.map Json.ofString).mapM text? = some names := by
  induction names with
  | nil => rfl
  | cons name rest ih =>
    rw [List.map_cons, List.mapM_cons, ih]
    rfl

private theorem count?_ofNat {n : Nat} (bound : n < 2 ^ 64) : count? (.ofNat n) = some n := by
  change (some n).filter (· < 2 ^ 64) = some n
  exact Option.filter_some_pos (decide_eq_true bound)

private theorem cache?_cacheJson (settings : CacheSettings) (bound : settings.maxEntries < 2 ^ 64) :
    cache? (cacheJson settings) = some settings := by
  rw [cacheJson, Json.ofMembers, cache?, fields?_ofMembers]
  simp [field?, bool?, count?_ofNat bound]

private theorem keywords?_keywordsJson (keywords : KeywordSource) :
    keywords? (keywordsJson keywords) = some keywords := by
  cases keywords with
  | builtin => rfl
  | file path => rfl
  | inline names =>
    change ((names.map Json.ofString).mapM text?).map KeywordSource.inline = _
    rw [text?_names]
    rfl

private theorem ofJson?_toJson (c : Config) (bound : c.cache.maxEntries < 2 ^ 64) :
    ofJson? c.toJson = some c := by
  have cache := cache?_cacheJson c.cache bound
  have keywords := keywords?_keywordsJson c.keywords
  rw [toJson, Json.ofMembers, ofJson?, fields?_ofMembers]
  simp [field?, cache, keywords]

private theorem ofString_written (text : String) :
    ∀ token ∈ (Json.ofString text).tokens, token.Written := by
  intro token member
  obtain rfl := List.mem_singleton.mp member
  trivial

private theorem cacheJson_written (settings : CacheSettings) :
    ∀ token ∈ (cacheJson settings).tokens, token.Written := by
  apply Json.ofMembers_written
  simp only [List.forall_mem_cons]
  refine ⟨?_, ?_, ?_, nofun⟩
  all_goals
    intro token member
    obtain rfl := List.mem_singleton.mp member
  · trivial
  · exact nofun
  · trivial

private theorem keywordsJson_written (keywords : KeywordSource) :
    ∀ token ∈ (keywordsJson keywords).tokens, token.Written := by
  cases keywords with
  | builtin => exact ofString_written "builtin"
  | file path =>
    apply Json.ofMembers_written
    exact List.forall_mem_singleton.mpr (ofString_written path)
  | inline names =>
    apply Json.ofMembers_written
    refine List.forall_mem_singleton.mpr (Json.array_written ?_)
    intro item member
    obtain ⟨name, -, rfl⟩ := List.mem_map.mp member
    exact ofString_written name

private theorem read?_toText (c : Config) : Json.read? c.toText = some c.toJson := by
  apply Json.read?_compact
  rw [toJson]
  apply Json.ofMembers_written
  simp only [List.forall_mem_cons]
  exact ⟨cacheJson_written c.cache, keywordsJson_written c.keywords, nofun⟩

theorem validate_eq_ok_iff (c : Config) :
    c.validate = .ok () ↔ ¬ (c.cache.enabled = true ∧ c.cache.maxEntries = 0) := by
  rw [validate]
  split <;> simp_all

/-- A configuration is read back from its text, unless it is one of those that are refused: a cache
that is enabled and has no room. -/
theorem ofText_toText (c : Config) (bound : c.cache.maxEntries < 2 ^ 64) :
    Json.read? c.toText = some c.toJson ∧
      (c.validate = .ok () → ofText c.toText = .ok c) ∧
      (c.validate ≠ .ok () → ofText c.toText = .error .cacheWithoutEntries) ∧
      (c.validate = .ok () ↔ ¬ (c.cache.enabled = true ∧ c.cache.maxEntries = 0)) := by
  have read : ofText c.toText = c.validate.map fun _ => c := by
    rw [ofText, read?_toText, Option.bind_some, ofJson?_toJson c bound]
    rfl
  refine ⟨c.read?_toText, ?_, ?_, c.validate_eq_ok_iff⟩
  · intro valid
    rw [read, valid]
    rfl
  · intro refused
    rw [read]
    rw [validate] at refused ⊢
    split at refused
    next empty => rw [if_pos empty]; rfl
    next => exact absurd rfl refused

/-- The largest number of entries and names with quotes, control characters and a character beyond
the basic plane; with no entries the same is refused. -/
theorem ofText_toText_names :
    let c : Config := ⟨⟨true, 2 ^ 64 - 1, false⟩, .inline ["\x22\\\n\x01", "\u00e9😀"]⟩
    let refused : Config := ⟨⟨true, 0, false⟩, c.keywords⟩
    c.cache.maxEntries < 2 ^ 64 ∧ c.validate = .ok () ∧ ofText c.toText = .ok c ∧
      refused.cache.maxEntries < 2 ^ 64 ∧ refused.validate ≠ .ok () ∧
      ofText refused.toText = .error .cacheWithoutEntries := by
  intro c refused
  have bound : c.cache.maxEntries < 2 ^ 64 := by decide
  have small : refused.cache.maxEntries < 2 ^ 64 := by decide
  have invalid : refused.validate ≠ .ok () := nofun
  exact ⟨bound, rfl, (ofText_toText c bound).2.1 rfl, small, invalid,
    (ofText_toText refused small).2.2.1 invalid⟩

end LispIndex.Config
