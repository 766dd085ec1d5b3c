import LispIndex.Proofs.CacheAccounting
import LispIndex.Proofs.LiveTrees
import Mathlib.Data.List.Dedup
import Mathlib.Data.List.DropRight

/-!
What a cache keeps. As long as nothing is dropped on request, the trees in an enabled cache are the
latest ones of the keys that were built last, as many as there is room for, in the order of their
builds.
-/

namespace LispIndex

section Window

variable {α : Type}

private theorem rtake_behind {front back : List α} {n : Nat}
    (fits : back.length = n ∨ front = [] ∧ back.length ≤ n) : (front ++ back).rtake n = back := by
  rw [List.rtake, List.length_append]
  rcases fits with rfl | ⟨rfl, short⟩
  · rw [Nat.add_sub_cancel, List.drop_left]
  · rw [List.length_nil, Nat.zero_add, Nat.sub_eq_zero_of_le short, List.nil_append, List.drop_zero]

private theorem exists_rtake (all : List α) (n : Nat) : ∃ front, all = front ++ all.rtake n ∧
    ((all.rtake n).length = n ∨ front = [] ∧ (all.rtake n).length ≤ n) := by
  refine ⟨all.take (all.length - n), (List.take_append_drop _ _).symm, ?_⟩
  rw [List.rtake, List.length_drop]
  rcases Nat.le_total n all.length with long | short
  · exact .inl (Nat.sub_sub_self long)
  · refine .inr ⟨?_, by omega⟩
    rw [Nat.sub_eq_zero_of_le short, List.take_zero]

theorem length_rtake (all : List α) (n : Nat) : (all.rtake n).length = min n all.length := by
  rw [List.rtake, List.length_drop]
  omega

/-- A new entry at the end of the last `n` entries takes the place of the one that has its key, or
else of the first one when there are `n` already. -/
theorem rtake_renewed {all : List (String × α)} (distinct : (all.map Prod.fst).Nodup) {n : Nat}
    (positive : 0 < n) (key : String) (value : α) :
    (all.filter (·.1 != key) ++ [(key, value)]).rtake n =
      (if ((all.rtake n).lookup key).isSome then (all.rtake n).filter (·.1 != key)
        else if n ≤ (all.rtake n).length then (all.rtake n).tail else all.rtake n) ++
        [(key, value)] := by
  obtain ⟨m, rfl⟩ := Nat.exists_eq_succ_of_ne_zero positive.ne'
  obtain ⟨front, split, fits⟩ := exists_rtake all (m + 1)
  rw [Nat.succ_eq_add_one, List.rtake_concat_succ, List.append_left_inj]
  generalize all.rtake (m + 1) = kept at split fits ⊢
  subst split
  rw [List.map_append] at distinct
  rw [List.filter_append]
  cases held : kept.lookup key with
  | some old =>
    -- What is replaced lies in the window, so that nothing before the window has its key.
    have length := length_filter_ne (List.nodup_append.mp distinct).2.1 key
    rw [held, Option.isSome_some, Bool.toNat_true] at length
    have free : front.lookup key = none := by
      rw [lookup_eq_none]
      intro member
      have other : kept.lookup key = none :=
        (lookup_eq_none _ _).mpr (List.disjoint_of_nodup_append distinct member)
      rw [other] at held
      cases held
    rw [Option.isSome_some, if_pos rfl, filter_ne_of_none free]
    apply rtake_behind
    rcases fits with full | ⟨rfl, short⟩
    · exact .inl (by omega)
    · exact .inr ⟨rfl, by omega⟩
  | none =>
    -- The window moves on by one, unless it is not full and nothing lies before it.
    rw [Option.isSome_none, if_neg Bool.false_ne_true, filter_ne_of_none held]
    split
    next full =>
      cases kept with
      | nil => exact absurd full (Nat.not_succ_le_zero m)
      | cons first rest =>
        rw [List.append_cons, List.tail_cons]
        apply rtake_behind
        rw [List.length_cons] at fits full
        exact .inl (by omega)
    next =>
      apply rtake_behind
      rcases fits with full | ⟨rfl, short⟩
      · omega
      · exact .inr ⟨rfl, by omega⟩

theorem mem_rtake_iff {before behind : List α} {a : α} (last : a ∉ behind) {n : Nat} :
    a ∈ (before ++ a :: behind).rtake n ↔ behind.length < n := by
  have length : (before ++ a :: behind).length = before.length + (behind.length + 1) := by
    rw [List.length_append, List.length_cons]
  rw [List.rtake, length]
  constructor
  · intro member
    by_contra far
    have past : (before ++ [a]).length ≤ before.length + (behind.length + 1) - n := by
      rw [List.length_append, List.length_singleton]
      omega
    rw [List.append_cons, List.drop_append, List.drop_eq_nil_of_le past, List.nil_append] at member
    exact last (List.mem_of_mem_drop member)
  · intro near
    rw [List.drop_append_of_le_length (by omega)]
    exact List.mem_append_right _ List.mem_cons_self

/-- An element is among the last `n` that differ if it occurs and fewer than `n` others occur behind
its last place. -/
theorem mem_rtake_dedup [DecidableEq α] {all : List α} {n : Nat} {a : α} :
    a ∈ all.dedup.rtake n ↔
      ∃ front back, all = front ++ a :: back ∧ a ∉ back ∧ back.dedup.length < n := by
  have iff {front back : List α} (last : a ∉ back) :
      a ∈ (front ++ a :: back).dedup.rtake n ↔ back.dedup.length < n := by
    obtain ⟨before, ends⟩ := List.suffix_union_right front (a :: back.dedup)
    rw [List.dedup_append, List.dedup_cons_of_notMem last, ← ends]
    exact mem_rtake_iff (mt List.mem_dedup.mp last)
  constructor
  · intro member
    have listed : a ∈ all.reverse :=
      List.mem_reverse.mpr (List.mem_dedup.mp (List.mem_of_mem_drop member))
    obtain ⟨behind, before, reversed, last⟩ := List.eq_append_cons_of_mem listed
    obtain rfl : all = before.reverse ++ a :: behind.reverse := by
      rw [← all.reverse_reverse, reversed]
      simp
    have apart : a ∉ behind.reverse := mt List.mem_reverse.mp last
    exact ⟨_, _, rfl, apart, (iff apart).mp member⟩
  · rintro ⟨front, back, rfl, last, few⟩
    exact (iff last).mpr few

end Window

namespace ScopeCache

/-- The builds of a history that are the latest of their keys, by the numbers of their trees. -/
def latestFrom (number : Nat) : List (String × ScopeTree) → List (String × NumberedTree)
  | [] => []
  | (key, tree) :: rest =>
    if key ∈ rest.map Prod.fst then latestFrom (number + 1) rest
    else (key, ⟨number, tree⟩) :: latestFrom (number + 1) rest

private theorem latestFrom_keys (number : Nat) (built : List (String × ScopeTree)) :
    (latestFrom number built).map Prod.fst = (built.map Prod.fst).dedup := by
  induction built generalizing number with
  | nil => rfl
  | cons made rest ih =>
    rw [latestFrom, List.map_cons]
    split
    next again => rw [ih, List.dedup_cons_of_mem again]
    next last => rw [List.map_cons, ih, List.dedup_cons_of_notMem last]

theorem latestFrom_concat (number : Nat) (built : List (String × ScopeTree)) (key : String)
    (tree : ScopeTree) : latestFrom number (built ++ [(key, tree)]) =
      (latestFrom number built).filter (·.1 != key) ++ [(key, ⟨number + built.length, tree⟩)] := by
  induction built generalizing number with
  | nil => rfl
  | cons made rest ih =>
    obtain ⟨name, other⟩ := made
    have shift : number + 1 + rest.length = number + (rest.length + 1) := by omega
    rw [List.cons_append, latestFrom, latestFrom, ih, List.map_append, List.length_cons, shift]
    by_cases again : name ∈ rest.map Prod.fst
    · rw [if_pos (List.mem_append_left _ again), if_pos again]
    · by_cases same : name = key
      · rw [if_pos (by simp [same]), if_neg again, List.filter_cons_of_neg (by simp [same])]
      · rw [if_neg (by simpa [again] using same), if_neg again,
          List.filter_cons_of_pos (by simpa using same), List.cons_append]

section Store

variable {c : ScopeCache} (distinct : (c.entries.map Prod.fst).Nodup)

include distinct

private theorem evict_entries : c.evict.entries = c.entries.tail := by
  rw [evict]
  split
  next none => rw [none]; rfl
  next name t rest first =>
    rw [first, List.map_cons, List.nodup_cons] at distinct
    rw [drop_eq, first]
    dsimp only
    rw [List.filter_cons_of_neg (by simp), List.tail_cons]
    exact filter_ne_of_none ((lookup_eq_none _ _).mpr distinct.1)

/-- A tree goes to the end of the entries, in place of the one under its key or, if there is none
and no room either, of the oldest one. -/
theorem store_entries (key : String) (t : NumberedTree) : (c.store key t).entries =
      (if (c.entry? key).isSome then c.entries.filter (·.1 != key)
        else if c.settings.maxEntries ≤ c.entries.length then c.entries.tail else c.entries) ++
        [(key, t)] := by
  rw [store, drop_eq]
  dsimp only
  rw [List.append_left_inj]
  cases held : c.entry? key with
  | some old =>
    rw [Option.isNone_some, Bool.false_and, if_neg Bool.false_ne_true, Option.isSome_some,
      if_pos rfl]
  | none =>
    rw [Option.isNone_none, Bool.true_and, Option.isSome_none, if_neg Bool.false_ne_true]
    simp only [decide_eq_true_eq]
    split
    next =>
      rw [← evict_entries distinct]
      exact filter_ne_of_none (entry?_evict key held)
    next => exact filter_ne_of_none held

end Store

def Call.keeps : Call → Bool
  | .invalidate | .invalidatePath _ => false
  | _ => true

/-- A call builds one tree and does nothing else, or it builds none and, if it drops none either,
leaves the entries alone. -/
theorem builds_cases (c : ScopeCache) (call : Call) :
    (∃ s, c.step call = (c.rebuild s).2 ∧ c.builds call = [c.treeOf s]) ∨
      c.builds call = [] ∧
        (call.keeps = true → ∃ active hits, c.step call = { c with active, hits }) := by
  cases call with
  | fetch s force =>
    rcases c.fetch_cases s force with ⟨t, hit, -, none⟩ | ⟨miss, one⟩
    · exact .inr ⟨none, fun _ => ⟨_, _, congrArg Prod.snd hit⟩⟩
    · exact .inl ⟨s, congrArg Prod.snd miss, one⟩
  | exportsGlobally s name =>
    rcases c.exportsGlobally_cases s name with ⟨same, none⟩ | ⟨miss, one⟩
    · exact .inr ⟨none, fun _ => ⟨_, _, same⟩⟩
    · exact .inl ⟨s, miss, one⟩
  | setActive path => exact .inr ⟨rfl, fun _ => ⟨_, _, rfl⟩⟩
  | cached path => exact .inr ⟨rfl, fun _ => ⟨_, _, rfl⟩⟩
  | invalidate => exact .inr ⟨rfl, nofun⟩
  | invalidatePath path => exact .inr ⟨rfl, nofun⟩

structure Recorded (maxEntries : Nat) (c : ScopeCache) (built : List (String × ScopeTree)) : Prop
    extends c.Current built where
  room : c.settings.maxEntries = maxEntries
  latest : c.entries = (latestFrom 0 built).rtake maxEntries

structure KeepsLatest (maxEntries : Nat) (c : ScopeCache) (built : List (String × ScopeTree)) :
    Prop where
  latest : c.entries = (latestFrom 0 built).rtake maxEntries
  count : c.entries.length = min maxEntries (built.map Prod.fst).dedup.length
  /-- A path is cached if fewer than `maxEntries` others were built behind its latest build. -/
  recent : ∀ path, (c.cached? path).isSome = true ↔
    ∃ front back, built.map Prod.fst = front ++ normalizePath path :: back ∧
      normalizePath path ∉ back ∧ back.dedup.length < maxEntries
  idle : ∀ call, call.keeps = true → c.builds call = [] →
    (c.step call).entries = c.entries ∧ (c.step call).evictions = c.evictions
  forced : ∀ s, c.builds (.fetch s true) = [c.treeOf s]
  active : ∀ s force, c.settings.rebuildActive = true → c.active = some s.key →
    c.builds (.fetch s force) = [c.treeOf s]
  renews : ∀ call key tree, c.builds call = [(key, tree)] → (c.entry? key).isSome = true →
    (c.step call).entries = c.entries.filter (·.1 != key) ++ [(key, ⟨c.built, tree⟩)] ∧
      (c.step call).evictions = c.evictions
  admits : ∀ call key tree, c.builds call = [(key, tree)] → c.entry? key = none →
    c.entries.length < maxEntries →
    (c.step call).entries = c.entries ++ [(key, ⟨c.built, tree⟩)] ∧
      (c.step call).evictions = c.evictions
  evicts : ∀ call key tree, c.builds call = [(key, tree)] → c.entry? key = none →
    maxEntries ≤ c.entries.length →
    (c.step call).entries = c.entries.tail ++ [(key, ⟨c.built, tree⟩)] ∧
      (c.step call).evictions = c.evictions + 1

namespace Recorded

variable {maxEntries : Nat} {c : ScopeCache} {built : List (String × ScopeTree)}

/-- The entries behind a build, and the trees that are accounted for. -/
theorem stored (recorded : c.Recorded maxEntries built) (s : Source) :
    (c.rebuild s).2.entries =
      (if (c.entry? s.key).isSome then c.entries.filter (·.1 != s.key)
        else if maxEntries ≤ c.entries.length then c.entries.tail else c.entries) ++
        [(s.key, ⟨c.built, (c.treeOf s).2⟩)] ∧
      (c.rebuild s).2.entries.length + (c.rebuild s).2.evictions +
        (c.entry? s.key).isSome.toNat = c.entries.length + c.evictions + 1 := by
  have distinct : (c.counted.entries.map Prod.fst).Nodup := recorded.live.distinct
  rw [rebuild_eq, if_pos recorded.enabled, ← recorded.room]
  exact ⟨store_entries distinct s.key _, store_length distinct s.key _⟩

private theorem rebuild (recorded : c.Recorded maxEntries built) (positive : 0 < maxEntries)
    (s : Source) :
    (c.rebuild s).2.Recorded maxEntries (built ++ [c.treeOf s]) := by
  refine ⟨(recorded.toCurrent.rebuild s).1, ?_, ?_⟩
  · obtain ⟨entries, dropped, evictions, made⟩ :=
      c.counted.store_eq s.key ⟨c.built, (c.treeOf s).2⟩
    rw [rebuild_eq, if_pos recorded.enabled, made]
    exact recorded.room
  · have distinct : ((latestFrom 0 built).map Prod.fst).Nodup := by
      rw [latestFrom_keys]
      exact List.nodup_dedup _
    have concat : latestFrom 0 (built ++ [c.treeOf s]) =
        (latestFrom 0 built).filter (·.1 != s.key) ++ [(s.key, ⟨c.built, (c.treeOf s).2⟩)] := by
      rw [recorded.numbered, ← Nat.zero_add built.length]
      exact latestFrom_concat 0 built s.key (c.treeOf s).2
    rw [(recorded.stored s).1, concat, rtake_renewed distinct positive, ← recorded.latest]
    rfl

/-- A call that drops nothing on request leaves the latest trees in the cache. -/
theorem step (recorded : c.Recorded maxEntries built) (positive : 0 < maxEntries) {call : Call}
    (keeps : call.keeps = true) : (c.step call).Recorded maxEntries (built ++ c.builds call) := by
  rcases c.builds_cases call with ⟨s, made, one⟩ | ⟨none, idle⟩
  · rw [made, one]
    exact recorded.rebuild positive s
  · have current := recorded.toCurrent.step call
    obtain ⟨active, hits, same⟩ := idle keeps
    rw [none, List.append_nil] at current ⊢
    refine ⟨current, ?_, ?_⟩
    · rw [same]
      exact recorded.room
    · rw [same]
      exact recorded.latest

theorem run (recorded : c.Recorded maxEntries built) (positive : 0 < maxEntries)
    {calls : List Call} (keep : ∀ call ∈ calls, call.keeps = true) :
    (c.run calls).Recorded maxEntries (built ++ c.history calls) := by
  induction calls generalizing c built with
  | nil =>
    rw [history, List.append_nil]
    exact recorded
  | cons call rest ih =>
    obtain ⟨first, later⟩ := List.forall_mem_cons.mp keep
    rw [history, ← List.append_assoc]
    exact ih (recorded.step positive first) later

private theorem keys (recorded : c.Recorded maxEntries built) :
    c.entries.map Prod.fst = (built.map Prod.fst).dedup.rtake maxEntries := by
  have length : (latestFrom 0 built).length = (built.map Prod.fst).dedup.length := by
    rw [← latestFrom_keys 0, List.length_map]
  rw [recorded.latest, List.rtake, List.map_drop, latestFrom_keys, length]
  rfl

theorem cached_iff (recorded : c.Recorded maxEntries built) (path : String) :
    (c.cached? path).isSome = true ↔
      ∃ front back, built.map Prod.fst = front ++ normalizePath path :: back ∧
        normalizePath path ∉ back ∧ back.dedup.length < maxEntries := by
  rw [← mem_rtake_dedup, ← recorded.keys, Option.isSome_iff_ne_none, cached?, entry?, ne_eq,
    lookup_eq_none, not_not]

/-- A call that builds a tree puts it at the end, in place of at most one other tree. -/
theorem step_stored (recorded : c.Recorded maxEntries built) {call : Call} {key : String}
    {tree : ScopeTree} (one : c.builds call = [(key, tree)]) :
    (c.step call).entries =
      (if (c.entry? key).isSome then c.entries.filter (·.1 != key)
        else if maxEntries ≤ c.entries.length then c.entries.tail else c.entries) ++
        [(key, ⟨c.built, tree⟩)] ∧
      (c.step call).entries.length + (c.step call).evictions + (c.entry? key).isSome.toNat =
        c.entries.length + c.evictions + 1 := by
  rcases c.builds_cases call with ⟨s, made, source⟩ | ⟨none, -⟩
  · rw [source, List.singleton_inj] at one
    obtain ⟨rfl, rfl⟩ := Prod.mk.inj one
    rw [made]
    exact recorded.stored s
  · rw [none] at one
    cases one

theorem keepsLatest (recorded : c.Recorded maxEntries built) (positive : 0 < maxEntries) :
    c.KeepsLatest maxEntries built where
  latest := recorded.latest
  count := by rw [← List.length_map, recorded.keys, length_rtake]
  recent := recorded.cached_iff
  idle := by
    intro call keeps none
    rcases c.builds_cases call with ⟨s, -, one⟩ | ⟨-, idle⟩
    · rw [one] at none
      cases none
    · obtain ⟨active, hits, same⟩ := idle keeps
      rw [same]
      exact ⟨rfl, rfl⟩
  forced _ := rfl
  active := by
    intro s force rebuilds here
    have none : c.current? s.key = none := by
      rw [current?, rebuilds, here]
      simp
    rw [builds, none, Option.isNone_none, Bool.or_true, if_pos rfl]
  renews := by
    intro call key tree one held
    obtain ⟨entries, length⟩ := recorded.step_stored one
    have shorter := length_filter_ne recorded.live.distinct key
    rw [if_pos held] at entries
    refine ⟨entries, ?_⟩
    rw [entries, List.length_append, List.length_singleton, held, Bool.toNat_true] at length
    rw [← entry?, held, Bool.toNat_true] at shorter
    omega
  admits := by
    intro call key tree one free short
    obtain ⟨entries, length⟩ := recorded.step_stored one
    rw [free, Option.isSome_none, if_neg Bool.false_ne_true, if_neg (by omega)] at entries
    refine ⟨entries, ?_⟩
    rw [entries, List.length_append, List.length_singleton, free, Option.isSome_none,
      Bool.toNat_false] at length
    omega
  evicts := by
    intro call key tree one free full
    obtain ⟨entries, length⟩ := recorded.step_stored one
    rw [free, Option.isSome_none, if_neg Bool.false_ne_true, if_pos full] at entries
    refine ⟨entries, ?_⟩
    rw [entries, List.length_append, List.length_singleton, List.length_tail, free,
      Option.isSome_none, Bool.toNat_false] at length
    omega

end Recorded

/-- However an enabled cache is used, short of dropping trees on request, it keeps the latest trees
of the keys that were built last. -/
theorem run_keeps_latest {maxEntries : Nat} (positive : 0 < maxEntries) (rebuildActive : Bool)
    (keywords : KeywordOracle) {calls : List Call} (keep : ∀ call ∈ calls, call.keeps = true) :
    (run { settings := ⟨true, maxEntries, rebuildActive⟩, keywords } calls).KeepsLatest maxEntries
      (history { settings := ⟨true, maxEntries, rebuildActive⟩, keywords } calls) := by
  have start : ({ settings := ⟨true, maxEntries, rebuildActive⟩, keywords } : ScopeCache).Recorded
      maxEntries [] :=
    ⟨⟨rfl, rfl, List.nodup_nil, nofun, nofun, nofun⟩, rfl, (List.rtake_nil _).symm⟩
  exact (start.run positive keep).keepsLatest positive

/-- Three sources in a cache with room for two trees, the first of which is built again before the
third one comes. -/
theorem run_keeps_latest_rebuilt :
    let a := Source.ofText .builtin "w\\a.lsp" "(defun f (x) x) ; @Global"
    let b := Source.ofText .builtin "w/b.lsp" "(setq y 1)"
    let c := Source.ofText .builtin "w/c.lsp" "(f y)"
    let start : ScopeCache := { settings := ⟨true, 2, true⟩ }
    let calls : List Call := [.fetch a false, .fetch b false, .exportsGlobally a "f",
      .setActive (some "w/a.lsp"), .fetch c false, .fetch c false]
    0 < 2 ∧ (∀ call ∈ calls, call.keeps = true) ∧
      (start.run calls).KeepsLatest 2 (start.history calls) := by
  intro a b c start calls
  have keep : ∀ call ∈ calls, call.keeps = true := by simp [calls, Call.keeps]
  exact ⟨Nat.two_pos, keep, run_keeps_latest Nat.two_pos true .builtin keep⟩

end ScopeCache

end LispIndex
