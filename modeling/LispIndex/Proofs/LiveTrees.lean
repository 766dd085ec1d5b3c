import LispIndex.Proofs.CacheRuns

/-!
One live tree for each key. Whatever calls are made, the tree that is cached under a key is the only
valid one among all that were built for it.
-/

namespace LispIndex.ScopeCache

structure Live (c : ScopeCache) (built : List (String × ScopeTree)) : Prop where
  distinct : (c.entries.map Prod.fst).Nodup
  known : ∀ key t, c.entry? key = some t → built[t.number]? = some (key, t.tree)
  valid : ∀ (n : Nat) (key : String) (tree : ScopeTree), built[n]? = some (key, tree) →
    (c.isValid n = true ↔ c.entry? key = some ⟨n, tree⟩)
  disposed : ∀ n ∈ c.disposed, n < built.length

namespace Live

variable {c other : ScopeCache} {built : List (String × ScopeTree)}

private theorem congr (live : c.Live built) (entries : other.entries = c.entries)
    (disposed : other.disposed = c.disposed) : other.Live built := by
  have entry (key : String) : other.entry? key = c.entry? key := by rw [ entry?, entries]; rfl
  have valid (n : Nat) : other.isValid n = c.isValid n := by rw [isValid, disposed]; rfl
  constructor
  · rw [entries]
    exact live.distinct
  · intro key t found
    exact live.known key t ((entry key).symm.trans found)
  · intro n key tree made
    rw [valid, entry]
    exact live.valid n key tree made
  · rw [disposed]
    exact live.disposed

private theorem drop (live : c.Live built) (key : String) : (c.drop key).Live built := by
  constructor
  · rw [drop_eq]
    exact (List.filter_sublist.map Prod.fst).nodup live.distinct
  · intro name t found
    rw [entry?_drop] at found
    split at found
    next => cases found
    next => exact live.known name t found
  · intro n name tree made
    have before := live.valid n name tree made
    rw [isValid_iff] at before ⊢
    rw [entry?_drop, drop_eq]
    simp only [List.mem_append, Option.mem_toList, Option.map_eq_some_iff, not_or]
    rw [before]
    split
    next same =>
      subst same
      refine ⟨?_, nofun⟩
      rintro ⟨none, here⟩
      exact absurd ⟨_, here, rfl⟩ none
    next apart =>
      -- What is held under another key has another number.
      refine ⟨And.right, fun here => ⟨?_, here⟩⟩
      rintro ⟨t, found, rfl⟩
      have both := Option.some.inj (made.symm.trans (live.known key t found))
      exact apart (congrArg Prod.fst both)
  · intro n member
    rw [drop_eq] at member
    rcases List.mem_append.mp member with dropped | earlier
    · obtain ⟨t, found, rfl⟩ := Option.map_eq_some_iff.mp (Option.mem_toList.mp dropped)
      exact (List.getElem?_eq_some_iff.mp (live.known key t found)).1
    · exact live.disposed n earlier

private theorem evict (live : c.Live built) : c.evict.Live built := by
  rw [ScopeCache.evict]
  split
  next => exact live
  next key t rest first => exact (live.drop key).congr rfl rfl

private theorem invalidate (live : c.Live built) : c.invalidate.2.Live built := by
  constructor
  · exact List.nodup_nil
  · exact nofun
  · intro n key tree made
    have before := live.valid n key tree made
    rw [isValid_iff] at before ⊢
    refine ⟨?_, nofun⟩
    intro kept
    obtain ⟨fresh, earlier⟩ := not_or.mp (mt List.mem_append.mpr kept)
    have member := (mem_iff_lookup live.distinct key _).mpr (before.mp earlier)
    exact absurd (List.mem_map_of_mem (f := fun entry => entry.2.number) member) fresh
  · intro n member
    rcases List.mem_append.mp member with dropped | earlier
    · obtain ⟨⟨key, t⟩, listed, rfl⟩ := List.mem_map.mp dropped
      have found := (mem_iff_lookup live.distinct key t).mp listed
      exact (List.getElem?_eq_some_iff.mp (live.known key t found)).1
    · exact live.disposed n earlier

/-- A new tree under a key that has none. -/
private theorem push (live : c.Live built) {key : String} (free : c.entry? key = none)
    (tree : ScopeTree) :
    ({ c with entries := c.entries ++ [(key, ⟨built.length, tree⟩)] } : ScopeCache).Live
      (built ++ [(key, tree)]) := by
  have entry (name : String) :
      (c.entries ++ [(key, (⟨built.length, tree⟩ : NumberedTree))]).lookup name =
        if name = key then some ⟨built.length, tree⟩ else c.entry? name := by
    rw [List.lookup_append, lookup_cons_eq]
    split
    next same =>
      subst same
      exact congrArg (Option.or · _) free
    next => exact Option.or_none
  constructor
  · have fresh := (lookup_eq_none _ _).mp free
    simpa using live.distinct.concat fresh
  · intro name t found
    rw [ entry?, entry] at found
    split at found
    next same =>
      obtain rfl := Option.some.inj found
      rw [same]
      exact List.getElem?_concat_length
    next =>
      have made := live.known name t found
      rw [List.getElem?_append_left (List.getElem?_eq_some_iff.mp made).1, made]
  · intro n name other made
    rw [isValid_iff, entry?, entry]
    rcases Nat.lt_or_ge n built.length with earlier | last
    · rw [List.getElem?_append_left earlier] at made
      have before := live.valid n name other made
      rw [isValid_iff] at before
      rw [before]
      split
      next same =>
        -- The key was free, so that every earlier tree of it is disposed of.
        rw [same, free]
        refine ⟨nofun, ?_⟩
        rintro ⟨⟩
        exact absurd earlier (Nat.lt_irrefl _)
      next => exact Iff.rfl
    · have bound := (List.getElem?_eq_some_iff.mp made).1
      rw [List.length_append, List.length_singleton] at bound
      obtain rfl : n = built.length := by omega
      rw [List.getElem?_concat_length] at made
      obtain ⟨rfl, rfl⟩ := Prod.mk.inj (Option.some.inj made)
      refine ⟨fun _ => if_pos rfl, fun _ disposed => ?_⟩
      exact absurd (live.disposed _ disposed) (Nat.lt_irrefl _)
  · intro n member
    rw [List.length_append]
    exact Nat.lt_add_right _ (live.disposed n member)

private theorem store (live : c.Live built) (key : String) (tree : ScopeTree) :
    (c.store key ⟨built.length, tree⟩).Live (built ++ [(key, tree)]) := by
  rw [ScopeCache.store]
  split
  next =>
    apply (live.evict.drop key).push
    rw [entry?_drop, if_pos rfl]
  next =>
    apply (live.drop key).push
    rw [entry?_drop, if_pos rfl]

end Live

structure Current (c : ScopeCache) (built : List (String × ScopeTree)) : Prop where
  enabled : c.settings.enabled = true
  numbered : c.built = built.length
  live : c.Live built

namespace Current

variable {c : ScopeCache} {built : List (String × ScopeTree)}

theorem rebuild (current : c.Current built) (s : Source) :
    (c.rebuild s).2.Current (built ++ [c.treeOf s]) ∧
      (c.rebuild s).1 = ⟨built.length, (c.treeOf s).2⟩ := by
  have counted : c.counted.Live built := current.live.congr rfl rfl
  have stored := counted.store s.key (c.treeOf s).2
  obtain ⟨entries, dropped, evictions, made⟩ :=
    c.counted.store_eq s.key ⟨built.length, (c.treeOf s).2⟩
  rw [rebuild_eq, if_pos current.enabled, current.numbered]
  refine ⟨⟨?_, ?_, stored⟩, rfl⟩
  · rw [made]
    exact current.enabled
  · rw [made, List.length_append]
    exact congrArg (· + 1) current.numbered

/-- Whatever the call is, the cache stays current. -/
theorem step (current : c.Current built) (call : Call) :
    (c.step call).Current (built ++ c.builds call) := by
  have same {other : ScopeCache} (settings : other.settings = c.settings)
      (count : other.built = c.built) (live : other.Live built) :
      other.Current (built ++ []) := by
    rw [List.append_nil]
    exact ⟨settings ▸ current.enabled, count.trans current.numbered, live⟩
  cases call with
  | fetch s force =>
    rcases c.fetch_cases s force with ⟨t, hit, -, none⟩ | ⟨miss, one⟩
    · rw [ScopeCache.step, hit, none]
      exact same rfl rfl (current.live.congr rfl rfl)
    · rw [ScopeCache.step, miss, one]
      exact (current.rebuild s).1
  | setActive path => exact same rfl rfl (current.live.congr rfl rfl)
  | exportsGlobally s name =>
    rcases c.exportsGlobally_cases s name with ⟨idle, none⟩ | ⟨miss, one⟩
    · rw [ScopeCache.step, idle, none]
      exact same rfl rfl current.live
    · rw [ScopeCache.step, miss, one]
      exact (current.rebuild s).1
  | cached path => exact same rfl rfl current.live
  | invalidate => exact same rfl rfl current.live.invalidate
  | invalidatePath path =>
    have settings : (c.drop (normalizePath path)).settings = c.settings := by rw [drop_eq]
    have count : (c.drop (normalizePath path)).built = c.built := by rw [drop_eq]
    exact same settings count (current.live.drop _)

theorem run (current : c.Current built) (calls : List Call) :
    (c.run calls).Current (built ++ c.history calls) := by
  induction calls generalizing c built with
  | nil => simpa [ScopeCache.run, history] using current
  | cons call rest ih =>
    rw [history, ← List.append_assoc]
    exact ih (current.step call)

end Current

/-- A cache that has at most one live tree for each key, the one that it holds, and in which no tree
comes back to life. -/
structure OneLive (c : ScopeCache) (built : List (String × ScopeTree)) : Prop where
  numbered : c.built = built.length
  valid : ∀ (n : Nat) (key : String) (tree : ScopeTree), built[n]? = some (key, tree) →
    (c.isValid n = true ↔ c.entry? key = some ⟨n, tree⟩)
  single : ∀ (n m : Nat) (key : String) (t u : ScopeTree), built[n]? = some (key, t) →
    built[m]? = some (key, u) → c.isValid n = true → c.isValid m = true → n = m
  fetched : ∀ s force, (c.fetch s force).2.isValid (c.fetch s force).1.number = true ∧
    (c.fetch s force).2.cached? s.path = some (c.fetch s force).1 ∧
    (built ++ c.builds (.fetch s force))[(c.fetch s force).1.number]? =
      some (s.key, (c.fetch s force).1.tree)
  gone : ∀ n calls, c.isValid n = false → (c.run calls).isValid n = false

private theorem Current.fetched {c : ScopeCache} {built : List (String × ScopeTree)}
    (current : c.Current built) (s : Source) (force : Bool) :
    (c.fetch s force).2.isValid (c.fetch s force).1.number = true ∧
      (c.fetch s force).2.cached? s.path = some (c.fetch s force).1 := by
  rcases c.fetch_cases s force with ⟨t, hit, found, -⟩ | ⟨miss, -⟩
  · rw [hit]
    rw [current?] at found
    split at found
    next =>
      obtain ⟨held, valid⟩ := Option.filter_eq_some_iff.mp found
      exact ⟨valid, held⟩
    next => cases found
  · obtain ⟨rebuilt, first⟩ := current.rebuild s
    have held : (c.rebuild s).2.cached? s.path = some (c.rebuild s).1 := by
      rw [rebuild_eq, if_pos current.enabled]
      exact entry?_store _ s.key _
    rw [miss]
    refine ⟨?_, held⟩
    rw [first] at held ⊢
    exact (rebuilt.live.valid built.length s.key _ List.getElem?_concat_length).mpr held

theorem Current.oneLive {c : ScopeCache} {built : List (String × ScopeTree)}
    (current : c.Current built) : c.OneLive built := by
  refine ⟨current.numbered, current.live.valid, ?_, ?_, ?_⟩
  · intro n m key t u first second left right
    have held := (current.live.valid n key t first).mp left
    have other := (current.live.valid m key u second).mp right
    exact congrArg NumberedTree.number (Option.some.inj (held.symm.trans other))
  · intro s force
    obtain ⟨valid, held⟩ := current.fetched s force
    exact ⟨valid, held, (current.step (.fetch s force)).live.known s.key _ held⟩
  · intro n calls invalid
    obtain ⟨dropped, grown⟩ := c.run_disposed calls
    rw [Bool.eq_false_iff, ne_eq, isValid_iff, not_not] at invalid ⊢
    rw [grown]
    exact List.mem_append_right _ invalid

/-- However a cache is used, it has one live tree for each key at most. -/
theorem run_one_live (maxEntries : Nat) (rebuildActive : Bool) (keywords : KeywordOracle)
    (calls : List Call) :
    (run { settings := ⟨true, maxEntries, rebuildActive⟩, keywords } calls).OneLive
      (history { settings := ⟨true, maxEntries, rebuildActive⟩, keywords } calls) := by
  have start : ({ settings := ⟨true, maxEntries, rebuildActive⟩, keywords } : ScopeCache).Current
      [] := ⟨rfl, rfl, List.nodup_nil, nofun, nofun, nofun⟩
  exact (start.run calls).oneLive

end LispIndex.ScopeCache
