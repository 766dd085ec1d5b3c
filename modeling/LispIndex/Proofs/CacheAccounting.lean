import LispIndex.Proofs.CacheRuns

/-!
The books of a cache. Every fetch counts as a hit or as a miss, and every tree that was built is
accounted for once: it is in the cache, or it was evicted, or another tree took its place, or it was
dropped on request.
-/

namespace LispIndex.ScopeCache

inductive Event where
  | call (call : Call)
  | dispose (number : Nat)

def after (c : ScopeCache) : Event → ScopeCache
  | .call call => c.step call
  | .dispose number => c.dispose number

def follow (c : ScopeCache) (events : List Event) : ScopeCache :=
  events.foldl after c

def Call.fetches : Call → List (Source × Bool)
  | .fetch s force => [(s, force)]
  | .exportsGlobally s name => if (s.exportsOf name).isEmpty then [] else [(s, true)]
  | _ => []

structure Ledger where
  fetches : Nat := 0
  /-- Trees that were built for a key that had one. -/
  replaced : Nat := 0
  invalidated : Nat := 0
  dropped : Nat := 0

def invalidated (c : ScopeCache) : Call → Nat
  | .invalidate => c.invalidate.1
  | _ => 0

def dropped (c : ScopeCache) : Call → Nat
  | .invalidatePath path => (c.invalidatePath path).1.toNat
  | _ => 0

def Ledger.enter (l : Ledger) (c : ScopeCache) : Event → Ledger
  | .dispose _ => l
  | .call call =>
    { fetches := l.fetches + call.fetches.length
      replaced := l.replaced + (c.builds call).countP fun made => (c.entry? made.1).isSome
      invalidated := l.invalidated + c.invalidated call
      dropped := l.dropped + c.dropped call }

def ledger (c : ScopeCache) (l : Ledger) : List Event → Ledger
  | [] => l
  | event :: rest => (c.after event).ledger (l.enter c event) rest

/-- The counters of a cache agree with a ledger, and it holds no more trees than it has room for. -/
structure Balanced (maxEntries : Nat) (c : ScopeCache) (l : Ledger) : Prop where
  fetched : c.hits + c.misses = l.fetches
  accounted : c.misses =
    c.entries.length + c.evictions + l.replaced + l.invalidated + l.dropped
  bounded : c.entries.length ≤ max 1 maxEntries

structure Idle (c : ScopeCache) (l : Ledger) : Prop where
  fetched : c.misses = l.fetches
  hits : c.hits = 0
  entries : c.entries.length = 0
  evictions : c.evictions = 0

/-- A call that asks for exports fetches the tree of the source, or nothing if the name is not
exported there. -/
theorem Ledger.enter_exports (l : Ledger) (c : ScopeCache) (s : Source) (name : String) :
    (c.exportsGlobally s name).2 = c ∧ l.enter c (.call (.exportsGlobally s name)) = l ∨
      (c.exportsGlobally s name).2 = (c.fetch s true).2 ∧
        l.enter c (.call (.exportsGlobally s name)) = l.enter c (.call (.fetch s true)) := by
  simp only [exportsGlobally, enter, builds, Call.fetches]
  cases s.exportsOf name with
  | nil => exact .inl ⟨rfl, rfl⟩
  | cons index rest => exact .inr ⟨rfl, rfl⟩

section Store

variable {c : ScopeCache} (distinct : (c.entries.map Prod.fst).Nodup) (key : String)

include distinct

private theorem drop_distinct : ((c.drop key).entries.map Prod.fst).Nodup := by
  rw [drop_eq]
  exact (List.filter_sublist.map Prod.fst).nodup distinct

theorem drop_length :
    (c.drop key).entries.length + (c.entry? key).isSome.toNat = c.entries.length := by
  rw [drop_eq]
  exact length_filter_ne distinct key

private theorem drop_length_of_none (free : c.entry? key = none) :
    (c.drop key).entries.length = c.entries.length := by
  have length := drop_length distinct key
  rwa [free] at length

private theorem evict_distinct : (c.evict.entries.map Prod.fst).Nodup := by
  rw [evict]
  split
  next => exact distinct
  next name t rest first => exact drop_distinct distinct name

/-- Eviction moves one tree from the entries to the evictions, if there is one. -/
theorem evict_length :
    c.evict.entries.length = c.entries.length - 1 ∧
      c.evict.entries.length + c.evict.evictions = c.entries.length + c.evictions := by
  rw [evict]
  split
  next none => simp [none]
  next name t rest first =>
    have held : c.entry? name = some t := by
      rw [ entry?, first, lookup_cons_eq, if_pos rfl]
    have length := drop_length distinct name
    rw [held, Option.isSome_some, Bool.toNat_true] at length
    dsimp only
    omega

omit distinct in
theorem entry?_evict (free : c.entry? key = none) : entry? c.evict key = none := by
  rw [evict]
  split
  next => exact free
  next name t rest first =>
    change entry? (c.drop name) key = none
    rw [ entry?_drop, free]
    split <;> rfl

private theorem store_distinct (t : NumberedTree) :
    ((c.store key t).entries.map Prod.fst).Nodup := by
  have last (room : ScopeCache) (apart : (room.entries.map Prod.fst).Nodup) :
      (((room.drop key).entries ++ [(key, t)]).map Prod.fst).Nodup := by
    have free : (room.drop key).entries.lookup key = none := by
      rw [← entry?, entry?_drop, if_pos rfl]
    simpa using (drop_distinct apart key).concat ((lookup_eq_none _ _).mp free)
  rw [store]
  split
  next => exact last c.evict (evict_distinct distinct)
  next => exact last c distinct

/-- A stored tree is one more to account for, unless it takes the place of another. -/
theorem store_length (t : NumberedTree) :
    (c.store key t).entries.length + (c.store key t).evictions + (c.entry? key).isSome.toNat =
      c.entries.length + c.evictions + 1 := by
  have kept (room : ScopeCache) : (room.drop key).evictions = room.evictions := by rw [drop_eq]
  rw [store]
  dsimp only
  rw [List.length_append, List.length_singleton, kept]
  split
  next full =>
    rw [Bool.and_eq_true, Option.isNone_iff_eq_none] at full
    have evicted := (evict_length distinct).2
    have room := drop_length_of_none (evict_distinct distinct) key (entry?_evict key full.1)
    rw [full.1, room, Option.isSome_none, Bool.toNat_false]
    omega
  next =>
    have dropped := drop_length distinct key
    omega

private theorem store_bounded (bounded : c.entries.length ≤ max 1 c.settings.maxEntries)
    (t : NumberedTree) : (c.store key t).entries.length ≤ max 1 c.settings.maxEntries := by
  rw [store]
  dsimp only
  rw [List.length_append, List.length_singleton]
  split
  next full =>
    rw [Bool.and_eq_true, Option.isNone_iff_eq_none] at full
    have evicted := (evict_length distinct).1
    have room := drop_length_of_none (evict_distinct distinct) key (entry?_evict key full.1)
    omega
  next fits =>
    have dropped := drop_length distinct key
    cases held : c.entry? key with
    | none =>
      rw [held, Option.isNone_none, Bool.true_and, decide_eq_true_eq] at fits
      omega
    | some previous =>
      rw [held, Option.isSome_some, Bool.toNat_true] at dropped
      omega

end Store

structure Kept (maxEntries : Nat) (c : ScopeCache) (l : Ledger) : Prop
    extends Balanced maxEntries c l where
  enabled : c.settings.enabled = true
  room : c.settings.maxEntries = maxEntries
  distinct : (c.entries.map Prod.fst).Nodup

namespace Kept

variable {maxEntries : Nat} {c : ScopeCache} {l : Ledger}

private theorem rebuild (kept : c.Kept maxEntries l) (s : Source) :
    (c.rebuild s).2.Kept maxEntries { l with
      fetches := l.fetches + 1
      replaced := l.replaced + (c.entry? s.key).isSome.toNat } := by
  have fetched := kept.fetched
  have accounted := kept.accounted
  have bounded := kept.bounded
  have distinct : (c.counted.entries.map Prod.fst).Nodup := kept.distinct
  have length := store_length distinct s.key ⟨c.built, (c.treeOf s).2⟩
  have held : c.counted.entry? s.key = c.entry? s.key := rfl
  obtain ⟨entries, dropped, evictions, stored⟩ :=
    c.counted.store_eq s.key ⟨c.built, (c.treeOf s).2⟩
  rw [← kept.room] at bounded
  have room := store_bounded (c := c.counted) distinct s.key bounded ⟨c.built, (c.treeOf s).2⟩
  have apart := store_distinct distinct s.key ⟨c.built, (c.treeOf s).2⟩
  rw [rebuild_eq, if_pos kept.enabled]
  rw [held] at length
  rw [stored] at length room apart ⊢
  dsimp only [counted] at length room apart ⊢
  refine ⟨⟨?_, ?_, kept.room ▸ room⟩, kept.enabled, kept.room, apart⟩
  · dsimp only
    omega
  · dsimp only
    omega

private theorem fetch (kept : c.Kept maxEntries l) (s : Source) (force : Bool) :
    (c.fetch s force).2.Kept maxEntries (l.enter c (.call (.fetch s force))) := by
  rw [Ledger.enter]
  rcases c.fetch_cases s force with ⟨t, hit, -, none⟩ | ⟨miss, one⟩
  · have counted : c.hits + 1 + c.misses = l.fetches + 1 := by
      rw [Nat.add_right_comm, kept.fetched]
    rw [hit, none]
    exact ⟨⟨counted, kept.accounted, kept.bounded⟩, kept.enabled, kept.room, kept.distinct⟩
  · rw [miss, one, List.countP_singleton]
    have taken : (if (c.entry? (c.treeOf s).1).isSome = true then 1 else 0) =
        (c.entry? s.key).isSome.toNat := by
      cases found : c.entry? s.key <;> simp [treeOf, found]
    rw [taken]
    exact kept.rebuild s

/-- Whatever happens to the cache, the books stay balanced. -/
theorem after (kept : c.Kept maxEntries l) (event : Event) :
    (c.after event).Kept maxEntries (l.enter c event) := by
  cases event with
  | dispose number =>
    exact ⟨⟨kept.fetched, kept.accounted, kept.bounded⟩, kept.enabled, kept.room, kept.distinct⟩
  | call call =>
    cases call with
    | fetch s force => exact kept.fetch s force
    | setActive path =>
      exact ⟨⟨kept.fetched, kept.accounted, kept.bounded⟩, kept.enabled, kept.room, kept.distinct⟩
    | cached path => exact kept
    | exportsGlobally s name =>
      rw [ScopeCache.after, step]
      rcases l.enter_exports c s name with ⟨still, none⟩ | ⟨fetched, one⟩
      · rw [still, none]
        exact kept
      · rw [fetched, one]
        exact kept.fetch s true
    | invalidate =>
      have accounted := kept.accounted
      refine ⟨⟨kept.fetched, ?_, Nat.zero_le _⟩, kept.enabled, kept.room, List.nodup_nil⟩
      change c.misses =
        0 + c.evictions + l.replaced + (l.invalidated + c.entries.length) + l.dropped
      omega
    | invalidatePath path =>
      have accounted := kept.accounted
      have bounded := kept.bounded
      have length := drop_length kept.distinct (normalizePath path)
      have apart := drop_distinct kept.distinct (normalizePath path)
      rw [ScopeCache.after, step, invalidatePath]
      rw [drop_eq] at length apart ⊢
      dsimp only at length
      refine ⟨⟨kept.fetched, ?_, ?_⟩, kept.enabled, kept.room, apart⟩
      · dsimp only [Ledger.enter, dropped, invalidatePath, invalidated, builds, List.countP_nil]
        omega
      · dsimp only
        omega

private theorem follow (kept : c.Kept maxEntries l) (events : List Event) :
    (c.follow events).Kept maxEntries (c.ledger l events) := by
  induction events generalizing c l with
  | nil => exact kept
  | cons event rest ih => exact ih (kept.after event)

end Kept

structure Unused (c : ScopeCache) (l : Ledger) : Prop extends Idle c l where
  disabled : c.settings.enabled = false

namespace Unused

variable {c : ScopeCache} {l : Ledger}

private theorem fetch (unused : c.Unused l) (s : Source) (force : Bool) :
    (c.fetch s force).2.Unused (l.enter c (.call (.fetch s force))) := by
  have none : c.current? s.key = none := by rw [current?, unused.disabled]; rfl
  have miss : c.fetch s force = c.rebuild s := by
    rw [ScopeCache.fetch, none, ite_self]
  rw [miss, rebuild_eq, unused.disabled]
  exact ⟨⟨congrArg (· + 1) unused.fetched, unused.hits, unused.entries, unused.evictions⟩,
    unused.disabled⟩

private theorem after (unused : c.Unused l) (event : Event) :
    (c.after event).Unused (l.enter c event) := by
  cases event with
  | dispose number =>
    exact ⟨⟨unused.fetched, unused.hits, unused.entries, unused.evictions⟩, unused.disabled⟩
  | call call =>
    cases call with
    | fetch s force => exact unused.fetch s force
    | setActive path =>
      exact ⟨⟨unused.fetched, unused.hits, unused.entries, unused.evictions⟩, unused.disabled⟩
    | cached path => exact unused
    | exportsGlobally s name =>
      rw [ScopeCache.after, step]
      rcases l.enter_exports c s name with ⟨still, none⟩ | ⟨fetched, one⟩
      · rw [still, none]
        exact unused
      · rw [fetched, one]
        exact unused.fetch s true
    | invalidate =>
      exact ⟨⟨unused.fetched, unused.hits, rfl, unused.evictions⟩, unused.disabled⟩
    | invalidatePath path =>
      have none : c.entries = [] := List.length_eq_zero_iff.mp unused.entries
      have same : c.drop (normalizePath path) = c := by
        rw [drop, entry?, none]
        rfl
      rw [ScopeCache.after, step, invalidatePath, same]
      exact ⟨⟨unused.fetched, unused.hits, unused.entries, unused.evictions⟩, unused.disabled⟩

private theorem follow (unused : c.Unused l) (events : List Event) :
    (c.follow events).Unused (c.ledger l events) := by
  induction events generalizing c l with
  | nil => exact unused
  | cons event rest ih => exact ih (unused.after event)

end Unused

/-- Whatever a cache goes through, its counters agree with the ledger and it never holds more trees
than it has room for; one that is disabled holds nothing. -/
theorem run_balanced (maxEntries : Nat) (rebuildActive : Bool) (keywords : KeywordOracle)
    (events : List Event) :
    Balanced maxEntries (follow { settings := ⟨true, maxEntries, rebuildActive⟩, keywords } events)
        (ledger { settings := ⟨true, maxEntries, rebuildActive⟩, keywords } {} events) ∧
      Idle (follow { settings := ⟨false, maxEntries, rebuildActive⟩, keywords } events)
        (ledger { settings := ⟨false, maxEntries, rebuildActive⟩, keywords } {} events) := by
  have enabled : Kept maxEntries { settings := ⟨true, maxEntries, rebuildActive⟩, keywords } {} :=
    ⟨⟨rfl, rfl, Nat.zero_le _⟩, rfl, rfl, List.nodup_nil⟩
  have disabled : Unused { settings := ⟨false, maxEntries, rebuildActive⟩, keywords } {} :=
    ⟨⟨rfl, rfl, rfl, rfl⟩, rfl⟩
  exact ⟨(enabled.follow events).toBalanced, (disabled.follow events).toIdle⟩

end LispIndex.ScopeCache
