import LispIndex.Proofs.KeyedList
import LispIndex.ScopeCache

/-!
Runs of a cache: the calls that its users make, one after the other, and the trees that are built in
the course of them.
-/

namespace LispIndex.ScopeCache

inductive Call where
  | fetch (s : Source) (force : Bool)
  | setActive (path : Option String)
  | exportsGlobally (s : Source) (name : String)
  | cached (path : String)
  | invalidate
  | invalidatePath (path : String)

def step (c : ScopeCache) : Call → ScopeCache
  | .fetch s force => (c.fetch s force).2
  | .setActive path => c.setActive path
  | .exportsGlobally s name => (c.exportsGlobally s name).2
  | .cached _ => c
  | .invalidate => c.invalidate.2
  | .invalidatePath path => (c.invalidatePath path).2

def run (c : ScopeCache) (calls : List Call) : ScopeCache :=
  calls.foldl step c

def treeOf (c : ScopeCache) (s : Source) : String × ScopeTree :=
  (s.key, .build c.keywords.isNative s.path s.document)

def counted (c : ScopeCache) : ScopeCache :=
  { c with built := c.built + 1, misses := c.misses + 1 }

theorem rebuild_eq (c : ScopeCache) (s : Source) : c.rebuild s =
    (⟨c.built, (c.treeOf s).2⟩,
      if c.settings.enabled then c.counted.store s.key ⟨c.built, (c.treeOf s).2⟩
      else c.counted) :=
  rfl

def builds (c : ScopeCache) : Call → List (String × ScopeTree)
  | .fetch s force => if force || (c.current? s.key).isNone then [c.treeOf s] else []
  | .exportsGlobally s name => if (s.exportsOf name).isEmpty then [] else [c.treeOf s]
  | _ => []

def history (c : ScopeCache) : List Call → List (String × ScopeTree)
  | [] => []
  | call :: rest => c.builds call ++ (c.step call).history rest

theorem isValid_iff {c : ScopeCache} {n : Nat} : c.isValid n = true ↔ n ∉ c.disposed := by
  simp [isValid]

variable (c : ScopeCache) (key : String)

theorem drop_eq : c.drop key =
    { c with
      entries := c.entries.filter (·.1 != key)
      disposed := ((c.entry? key).map NumberedTree.number).toList ++ c.disposed } := by
  rw [drop]
  cases found : c.entry? key with
  | some t => rfl
  | none =>
    rw [filter_ne_of_none found]
    rfl

theorem entry?_drop (other : String) :
    entry? (c.drop key) other = if other = key then none else c.entry? other := by
  rw [drop_eq]
  exact lookup_filter_ne c.entries key other

private theorem evict_eq : ∃ entries dropped evictions,
    c.evict = { c with entries, disposed := dropped ++ c.disposed, evictions } := by
  rw [evict]
  split
  next => exact ⟨c.entries, [], c.evictions, rfl⟩
  next name t rest first =>
    rw [drop_eq]
    exact ⟨_, _, _, rfl⟩

/-- Storing a tree changes the entries, disposes of what leaves them and leaves the rest alone. -/
theorem store_eq (t : NumberedTree) : ∃ entries dropped evictions,
    c.store key t = { c with entries, disposed := dropped ++ c.disposed, evictions } := by
  obtain ⟨entries, dropped, evictions, evicted⟩ := c.evict_eq
  rw [store, drop_eq]
  split
  next =>
    rw [evicted, ← List.append_assoc]
    exact ⟨_, _, _, rfl⟩
  next => exact ⟨_, _, _, rfl⟩

theorem entry?_store (t : NumberedTree) : entry? (c.store key t) key = some t := by
  have last (free : ScopeCache) (none : free.entry? key = none) :
      (free.entries ++ [(key, t)]).lookup key = some t := by
    rw [List.lookup_append, lookup_cons_eq, if_pos rfl]
    exact congrArg (Option.or · _) none
  apply last
  rw [ entry?_drop, if_pos rfl]

/-- A fetch that builds no tree finds one. -/
theorem fetch_cases (s : Source) (force : Bool) :
    (∃ t, c.fetch s force = (t, { c with hits := c.hits + 1 }) ∧ c.current? s.key = some t ∧
      c.builds (.fetch s force) = []) ∨
      c.fetch s force = c.rebuild s ∧ c.builds (.fetch s force) = [c.treeOf s] := by
  rw [fetch, builds]
  cases force with
  | true => exact .inr ⟨rfl, rfl⟩
  | false =>
    cases found : c.current? s.key with
    | none => exact .inr ⟨rfl, rfl⟩
    | some t => exact .inl ⟨t, rfl, rfl, rfl⟩

theorem exportsGlobally_cases (s : Source) (name : String) :
    ((c.exportsGlobally s name).2 = c ∧ c.builds (.exportsGlobally s name) = []) ∨
      (c.exportsGlobally s name).2 = (c.rebuild s).2 ∧
        c.builds (.exportsGlobally s name) = [c.treeOf s] := by
  rw [exportsGlobally, builds]
  cases s.exportsOf name with
  | nil => exact .inl ⟨rfl, rfl⟩
  | cons index rest => exact .inr ⟨rfl, rfl⟩

private theorem rebuild_disposed (s : Source) :
    ∃ dropped, (c.rebuild s).2.disposed = dropped ++ c.disposed := by
  rw [rebuild_eq]
  dsimp only
  split
  next =>
    obtain ⟨entries, dropped, evictions, stored⟩ := c.counted.store_eq s.key _
    exact ⟨dropped, congrArg disposed stored⟩
  next => exact ⟨[], rfl⟩

private theorem step_disposed (call : Call) :
    ∃ dropped, (c.step call).disposed = dropped ++ c.disposed := by
  cases call with
  | fetch s force =>
    rcases c.fetch_cases s force with ⟨t, hit, -⟩ | ⟨miss, -⟩
    · exact ⟨[], by rw [step, hit]; rfl⟩
    · rw [step, miss]
      exact c.rebuild_disposed s
  | setActive path => exact ⟨[], rfl⟩
  | exportsGlobally s name =>
    rcases c.exportsGlobally_cases s name with ⟨idle, -⟩ | ⟨miss, -⟩
    · exact ⟨[], by rw [step, idle]; rfl⟩
    · rw [step, miss]
      exact c.rebuild_disposed s
  | cached path => exact ⟨[], rfl⟩
  | invalidate => exact ⟨_, rfl⟩
  | invalidatePath path => exact ⟨_, by rw [step, invalidatePath, drop_eq]⟩

theorem run_disposed (calls : List Call) :
    ∃ dropped, (c.run calls).disposed = dropped ++ c.disposed := by
  induction calls generalizing c with
  | nil => exact ⟨[], rfl⟩
  | cons call rest ih =>
    obtain ⟨later, gone⟩ := ih (c.step call)
    obtain ⟨first, more⟩ := c.step_disposed call
    refine ⟨later ++ first, ?_⟩
    rw [List.append_assoc, ← more]
    exact gone

end LispIndex.ScopeCache
