import LispIndex.Proofs.CacheRuns

/-!
A cache against none. As long as every key stands for one source, a tree that is served from the
cache is the one that would be built, so that no answer shows whether there is a cache.
-/

namespace LispIndex.ScopeCache

inductive Answer where
  | tree (t : ScopeTree)
  | exported (yes : Bool)
  | none
deriving DecidableEq

def answer (c : ScopeCache) : Call → Answer
  | .fetch s force => .tree (c.fetch s force).1.tree
  | .exportsGlobally s name => .exported (c.exportsGlobally s name).1
  | _ => .none

def answers (c : ScopeCache) : List Call → List Answer
  | [] => []
  | call :: rest => c.answer call :: (c.step call).answers rest

def Call.sources : Call → List Source
  | .fetch s _ => [s]
  | .exportsGlobally s _ => [s]
  | _ => []

/-- Sources of one key have the same path and the same document. -/
def OneSource (sources : List Source) : Prop :=
  ∀ s ∈ sources, ∀ t ∈ sources, s.key = t.key → s.path = t.path ∧ s.document = t.document

def plainAnswer (keywords : KeywordOracle) : Call → Answer
  | .fetch s _ => .tree (.build keywords.isNative s.path s.document)
  | .exportsGlobally s name =>
    let t := ScopeTree.build keywords.isNative s.path s.document
    .exported ((s.exportsOf name).any fun index =>
      ((t.referenceAt? index).bind t.referenceBinder?) == some 0)
  | _ => .none

section Entries

variable {c : ScopeCache} {entry : String × NumberedTree}

theorem mem_drop {key : String} (member : entry ∈ (c.drop key).entries) : entry ∈ c.entries := by
  rw [drop_eq] at member
  exact List.mem_of_mem_filter member

theorem mem_evict (member : entry ∈ c.evict.entries) : entry ∈ c.entries := by
  rw [evict] at member
  split at member
  next => exact member
  next => exact mem_drop member

theorem mem_store {key : String} {t : NumberedTree} (member : entry ∈ (c.store key t).entries) :
    entry ∈ c.entries ∨ entry = (key, t) := by
  rw [store] at member
  rcases List.mem_append.mp member with earlier | last
  · have room := mem_drop earlier
    split at room
    next => exact .inl (mem_evict room)
    next => exact .inl room
  · exact .inr (List.mem_singleton.mp last)

theorem mem_rebuild {s : Source} (member : entry ∈ (c.rebuild s).2.entries) :
    entry ∈ c.entries ∨ c.treeOf s = (entry.1, entry.2.tree) := by
  rw [rebuild_eq] at member
  dsimp only at member
  split at member
  next =>
    refine (mem_store member).imp_right ?_
    rintro rfl
    rfl
  next => exact .inl member

end Entries

private theorem rebuild_keywords (c : ScopeCache) (s : Source) :
    (c.rebuild s).2.keywords = c.keywords := by
  rw [rebuild_eq]
  dsimp only
  split
  next =>
    obtain ⟨entries, dropped, evictions, stored⟩ :=
      c.counted.store_eq s.key ⟨c.built, (c.treeOf s).2⟩
    rw [stored]
    rfl
  next => rfl

/-- A call builds the tree of the source that it is given, or it does no more than to drop entries
and to note whom it was for. -/
theorem step_cases (c : ScopeCache) (call : Call) :
    (∃ s ∈ call.sources, c.step call = (c.rebuild s).2) ∨
      ∃ active entries disposed hits, entries ⊆ c.entries ∧
        c.step call = { c with active, entries, disposed, hits } := by
  cases call with
  | fetch s force =>
    rcases c.fetch_cases s force with ⟨t, hit, -⟩ | ⟨miss, -⟩
    · exact .inr ⟨_, _, _, _, List.Subset.refl _, by rw [step, hit]⟩
    · exact .inl ⟨s, List.mem_singleton_self s, by rw [step, miss]⟩
  | setActive path => exact .inr ⟨_, _, _, _, List.Subset.refl _, rfl⟩
  | exportsGlobally s name =>
    rcases c.exportsGlobally_cases s name with ⟨idle, -⟩ | ⟨miss, -⟩
    · exact .inr ⟨_, _, _, _, List.Subset.refl _, by rw [step, idle]⟩
    · exact .inl ⟨s, List.mem_singleton_self s, by rw [step, miss]⟩
  | cached path => exact .inr ⟨_, _, _, _, List.Subset.refl _, rfl⟩
  | invalidate => exact .inr ⟨_, _, _, _, List.nil_subset _, rfl⟩
  | invalidatePath path =>
    exact .inr ⟨_, _, _, _, List.filter_subset_self _, by rw [step, invalidatePath, drop_eq]⟩

private theorem step_keywords (c : ScopeCache) (call : Call) :
    (c.step call).keywords = c.keywords := by
  rcases c.step_cases call with ⟨s, -, built⟩ | ⟨active, entries, disposed, hits, -, kept⟩
  · rw [built, rebuild_keywords]
  · rw [kept]

def Faithful (c : ScopeCache) (sources : List Source) : Prop :=
  ∀ entry ∈ c.entries, ∃ s ∈ sources, c.treeOf s = (entry.1, entry.2.tree)

namespace Faithful

variable {c : ScopeCache} {sources : List Source}

theorem step (faithful : c.Faithful sources) {call : Call} (given : call.sources ⊆ sources) :
    (c.step call).Faithful sources := by
  have same (s : Source) : (c.step call).treeOf s = c.treeOf s := by
    rw [treeOf, step_keywords, treeOf]
  intro entry member
  simp only [same]
  rcases c.step_cases call with ⟨s, here, built⟩ | ⟨active, entries, disposed, hits, fewer, kept⟩
  · rw [built] at member
    rcases mem_rebuild member with earlier | made
    · exact faithful entry earlier
    · exact ⟨s, given here, made⟩
  · rw [kept] at member
    exact faithful entry (fewer member)

/-- A tree that is found under the key of a source is the tree of that source. -/
theorem found (faithful : c.Faithful sources) (one : OneSource sources) {s : Source}
    (given : s ∈ sources) {t : NumberedTree} (found : c.entry? s.key = some t) :
    t.tree = (c.treeOf s).2 := by
  obtain ⟨before, after, split, -⟩ := List.lookup_eq_some_iff.mp found
  obtain ⟨other, known, made⟩ := faithful (s.key, t) (by simp [split])
  obtain ⟨key, tree⟩ := Prod.mk.inj made
  obtain ⟨path, document⟩ := one other known s given key
  rw [← tree, treeOf, ← path, ← document]

private theorem fetched (faithful : c.Faithful sources) (one : OneSource sources) {s : Source}
    (given : s ∈ sources) (force : Bool) : (c.fetch s force).1.tree = (c.treeOf s).2 := by
  rcases c.fetch_cases s force with ⟨t, hit, current, -⟩ | ⟨miss, -⟩
  · rw [hit]
    rw [current?] at current
    split at current
    next => exact faithful.found one given (Option.filter_eq_some_iff.mp current).1
    next => cases current
  · rw [miss, rebuild_eq]

theorem answer (faithful : c.Faithful sources) (one : OneSource sources) {call : Call}
    (given : call.sources ⊆ sources) : c.answer call = plainAnswer c.keywords call := by
  cases call with
  | fetch s force =>
    have known : s ∈ sources := given (List.mem_singleton_self s)
    exact congrArg Answer.tree (faithful.fetched one known force)
  | exportsGlobally s name =>
    rw [ScopeCache.answer, exportsGlobally, plainAnswer]
    cases exported : s.exportsOf name with
    | nil => rfl
    | cons index rest => rfl
  | setActive path => rfl
  | cached path => rfl
  | invalidate => rfl
  | invalidatePath path => rfl

private theorem answers (faithful : c.Faithful sources) (one : OneSource sources)
    (calls : List Call) (given : ∀ call ∈ calls, call.sources ⊆ sources) :
    c.answers calls = calls.map (plainAnswer c.keywords) := by
  induction calls generalizing c with
  | nil => rfl
  | cons call rest ih =>
    have here := given call (List.mem_cons_self ..)
    have later := ih (faithful.step here) fun other member =>
      given other (List.mem_cons_of_mem _ member)
    rw [ScopeCache.answers, faithful.answer one here, later, step_keywords, List.map_cons]

end Faithful

/-- Whatever calls are made, the answers are those of a cache that keeps nothing, and every tree that
is fetched is the one that is built for its source. -/
theorem run_transparent (settings : CacheSettings) (keywords : KeywordOracle) (calls : List Call)
    (one : OneSource (calls.flatMap Call.sources)) :
    answers { settings, keywords } calls =
        answers { settings := { settings with enabled := false }, keywords } calls ∧
      ∀ (i : Nat) (s : Source) (force : Bool), calls[i]? = some (.fetch s force) →
        (answers { settings, keywords } calls)[i]? =
          some (.tree (.build keywords.isNative s.path s.document)) := by
  have given : ∀ call ∈ calls, call.sources ⊆ calls.flatMap Call.sources :=
    fun call member s here => List.mem_flatMap.mpr ⟨call, member, here⟩
  have plain (any : CacheSettings) :
      answers { settings := any, keywords } calls = calls.map (plainAnswer keywords) :=
    Faithful.answers (fun _ member => absurd member List.not_mem_nil) one calls given
  refine ⟨by rw [plain, plain], ?_⟩
  intro i s force found
  rw [plain, List.getElem?_map, found]
  rfl

/-- Two sources in a cache with room for one tree. -/
theorem run_transparent_evicting :
    let a := Source.ofText .builtin "w\\a.lsp" "(defun f (x) x) ; @Global"
    let b := Source.ofText .builtin "w/b.lsp" "(setq y 1)"
    let settings : CacheSettings := ⟨true, 1, true⟩
    let calls : List Call := [.fetch a false, .fetch b false, .fetch b false,
      .setActive (some "w/b.lsp"), .exportsGlobally a "f", .invalidatePath "w/b.lsp", .fetch a true]
    OneSource (calls.flatMap Call.sources) ∧
      answers { settings } calls = answers { settings := { settings with enabled := false } } calls ∧
      ∀ (i : Nat) (s : Source) (force : Bool), calls[i]? = some (.fetch s force) →
        (answers { settings } calls)[i]? =
          some (.tree (.build KeywordOracle.builtin.isNative s.path s.document)) := by
  intro a b settings calls
  have apart : a.key ≠ b.key := by decide
  have one : OneSource (calls.flatMap Call.sources) := by
    intro s first t second same
    have listed (u : Source) (member : u ∈ calls.flatMap Call.sources) : u = a ∨ u = b := by
      have either : u = a ∨ u = b ∨ u = a := by simpa [calls, Call.sources] using member
      exact either.elim .inl Or.symm
    rcases listed s first with rfl | rfl <;> rcases listed t second with rfl | rfl
    · exact ⟨rfl, rfl⟩
    · exact absurd same apart
    · exact absurd same.symm apart
    · exact ⟨rfl, rfl⟩
  exact ⟨one, run_transparent settings .builtin calls one⟩

end LispIndex.ScopeCache
