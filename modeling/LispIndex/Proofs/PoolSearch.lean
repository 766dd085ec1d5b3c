import LispIndex.Pools
import LispIndex.Proofs.KeyedList

/-!
Sources that share a name. For each key the pools may hold several versions of a source, of which
the first one counts. The search reports the first version that has the name, which is the one that
counts unless that one has lost the name.
-/

namespace LispIndex.Pools

inductive Change where
  | add (s : Source) (pool : PoolName)
  | close (path : String)

def change (p : Pools) : Change → Pools
  | .add s pool => p.insert s pool
  | .close path => (p.close path).2

def after (changes : List Change) : Pools :=
  changes.foldl change empty

/-- The sources that have a name and count for their path, each path once, in the order of the
pools. -/
structure ListsCurrent (p : Pools) (name : String) (found : List Source) : Prop where
  members : ∀ s, s ∈ found ↔ p.get? s.path = some s ∧ s.hasSymbol (Text.lower name) = true
  once : (found.map Source.key).Nodup
  ordered : found.Sublist (p.entries.map Prod.snd)

/-- The first source of each path among those that have a name, in the order of the pools. -/
structure ListsFirst (p : Pools) (name : String) (found : List Source) : Prop where
  members : ∀ s, s ∈ found ↔
    (p.entries.filter fun entry => entry.2.hasSymbol (Text.lower name)).lookup s.key = some s
  once : (found.map Source.key).Nodup
  ordered : found.Sublist (p.entries.map Prod.snd)

def Keyed (p : Pools) : Prop :=
  ∀ entry ∈ p.entries, entry.1 = entry.2.key

theorem mem_entries {p : Pools} {entry : String × Source} : entry ∈ p.entries ↔
    entry ∈ p.opened.entries ∨ entry ∈ p.project.entries ∨ entry ∈ p.workspace.entries := by
  rw [entries, List.append_assoc, List.mem_append, List.mem_append]

theorem mem_insert {p : Pool} {s : Source} {entry : String × Source}
    (member : entry ∈ (p.insert s).entries) : entry ∈ p.entries ∨ entry = (s.key, s) := by
  rw [Pool.insert] at member
  split at member
  next =>
    obtain ⟨old, earlier, replaced⟩ := List.mem_map.mp member
    split at replaced
    next => exact .inr replaced.symm
    next => exact .inl (replaced ▸ earlier)
  next => simpa using member

/-- An entry behind a change was there before it or is the source that was added. -/
theorem mem_change {p : Pools} {c : Change} {entry : String × Source}
    (member : entry ∈ (p.change c).entries) :
    entry ∈ p.entries ∨ ∃ s, entry = (s.key, s) := by
  rw [mem_entries] at member ⊢
  cases c with
  | add s pool =>
    cases pool with
    | opened =>
      rcases member with opened | others
      · exact (mem_insert opened).imp .inl fun added => ⟨s, added⟩
      · exact .inl (.inr others)
    | project =>
      rcases member with opened | project | workspace
      · exact .inl (.inl opened)
      · exact (mem_insert project).imp (.inr ∘ .inl) fun added => ⟨s, added⟩
      · exact .inl (.inr (.inr workspace))
    | workspace =>
      rcases member with opened | project | workspace
      · exact .inl (.inl opened)
      · exact .inl (.inr (.inl project))
      · exact (mem_insert workspace).imp (.inr ∘ .inr) fun added => ⟨s, added⟩
  | close path =>
    exact .inl (member.imp_left List.mem_of_mem_filter)

theorem Keyed.change {p : Pools} (keyed : p.Keyed) (c : Change) : (p.change c).Keyed := by
  intro entry member
  rcases mem_change member with earlier | ⟨s, rfl⟩
  · exact keyed entry earlier
  · rfl

private theorem after_keyed (changes : List Change) : (after changes).Keyed := by
  have start : empty.Keyed := fun _ member => absurd member List.not_mem_nil
  have run (p : Pools) (keyed : p.Keyed) : (changes.foldl Pools.change p).Keyed := by
    induction changes generalizing p with
    | nil => exact keyed
    | cons c rest ih => exact ih _ (keyed.change c)
  exact run empty start

section Collect

variable (test : String × Source → Bool)

def collect (found : List (String × Source)) (entry : String × Source) : List (String × Source) :=
  if test entry && !found.any (·.1 == entry.1) then found ++ [entry] else found

variable (found rest entries : List (String × Source)) (entry : String × Source)

private theorem collect_eq : collect test found entry =
    if test entry = true ∧ entry.1 ∉ found.map Prod.fst then found ++ [entry] else found := by
  have known : found.any (·.1 == entry.1) = true ↔ entry.1 ∈ found.map Prod.fst := by simp
  rw [collect]
  simp only [Bool.and_eq_true, Bool.not_eq_true', ← Bool.not_eq_true, known]

private theorem collect_distinct (distinct : (found.map Prod.fst).Nodup) :
    ((collect test found entry).map Prod.fst).Nodup := by
  rw [collect_eq]
  split
  next taken => simpa using distinct.concat taken.2
  next => exact distinct

private theorem collect_sublist : (collect test found entry).Sublist (found ++ [entry]) := by
  rw [collect_eq]
  split
  next => exact .refl _
  next => exact List.sublist_append_left _ _

private theorem collect_lookup (key : String) : (collect test found entry ++ rest).lookup key =
    (found ++ ([entry].filter test ++ rest)).lookup key := by
  rw [collect_eq]
  split
  next taken => rw [List.filter_cons_of_pos taken.1, List.filter_nil, List.append_assoc]
  next left =>
    rw [not_and, not_not] at left
    cases passes : test entry with
    | false => simp [passes]
    | true =>
      -- An entry of its key was found before, which the look-up meets first.
      rw [List.filter_cons_of_pos passes, List.filter_nil, List.lookup_append, List.lookup_append,
        List.singleton_append, lookup_cons_eq]
      split
      next same =>
        have known : found.lookup key ≠ none := by
          rw [ne_eq, lookup_eq_none, not_not, same]
          exact left passes
        obtain ⟨s, here⟩ := Option.ne_none_iff_exists'.mp known
        rw [here, Option.some_or, Option.some_or]
      next => rfl

private theorem foldl_collect_distinct (distinct : (found.map Prod.fst).Nodup) :
    ((entries.foldl (collect test) found).map Prod.fst).Nodup := by
  induction entries generalizing found with
  | nil => exact distinct
  | cons entry rest ih => exact ih _ (collect_distinct test found entry distinct)

private theorem foldl_collect_sublist :
    (entries.foldl (collect test) found).Sublist (found ++ entries) := by
  induction entries generalizing found with
  | nil => rw [List.append_nil]; exact .refl _
  | cons entry rest ih =>
    have step := (collect_sublist test found entry).append_right rest
    rw [List.append_assoc, List.singleton_append] at step
    exact (ih _).trans step

private theorem foldl_collect_lookup (key : String) :
    (entries.foldl (collect test) found).lookup key =
    (found ++ entries.filter test).lookup key := by
  induction entries generalizing found with
  | nil => rw [List.filter_nil, List.append_nil]; rfl
  | cons entry rest ih =>
    rw [List.foldl_cons, ih, collect_lookup, ← List.filter_append, List.singleton_append]

end Collect

variable {p : Pools} {s : Source}

private theorem get?_of_key {t : Source} (same : s.key = t.key) : p.get? s.path = p.get? t.path :=
  congrArg (List.lookup · p.entries) same

theorem mem_of_lookup {entries : List (String × Source)} {key : String}
    (found : entries.lookup key = some s) : (key, s) ∈ entries := by
  obtain ⟨before, after, rfl, -⟩ := List.lookup_eq_some_iff.mp found
  simp

/-- The first of some entries under a key is also the first of those that pass a test, if it passes
the test. -/
theorem lookup_filter_of_pos {entries : List (String × Source)} (test : String × Source → Bool)
    {key : String} (found : entries.lookup key = some s) (passes : test (key, s) = true) :
    (entries.filter test).lookup key = some s := by
  obtain ⟨before, after, rfl, fresh⟩ := List.lookup_eq_some_iff.mp found
  rw [List.filter_append, List.filter_cons_of_pos passes]
  refine List.lookup_eq_some_iff.mpr ⟨_, _, rfl, ?_⟩
  intro entry member
  exact fresh entry (List.mem_of_mem_filter member)

theorem Keyed.listsFirst (keyed : p.Keyed) (name : String) :
    p.ListsFirst name (p.sharing name) := by
  let test (entry : String × Source) : Bool := entry.2.hasSymbol (Text.lower name)
  let found := p.entries.foldl (collect test) []
  have distinct : (found.map Prod.fst).Nodup :=
    foldl_collect_distinct test [] p.entries List.nodup_nil
  have ordered : found.Sublist p.entries := foldl_collect_sublist test [] p.entries
  have keys : found.map Prod.fst = found.map fun entry => entry.2.key :=
    List.map_congr_left fun entry member => keyed entry (ordered.subset member)
  have shared : p.sharing name = found.map Prod.snd := rfl
  constructor
  · intro s
    rw [shared, ← List.nil_append (p.entries.filter _), ← foldl_collect_lookup test,
      ← mem_iff_lookup distinct]
    constructor
    · intro member
      obtain ⟨entry, here, rfl⟩ := List.mem_map.mp member
      rw [← keyed entry (ordered.subset here)]
      exact here
    · exact List.mem_map_of_mem (f := Prod.snd)
  · rw [shared, List.map_map]
    exact keys ▸ distinct
  · exact ordered.map Prod.snd

/-- No source that counts has lost a name which an older version of it has. -/
def NoStale (p : Pools) (name : String) : Prop :=
  ∀ entry ∈ p.entries, entry.2.hasSymbol (Text.lower name) = true →
    ∃ s, p.get? entry.2.path = some s ∧ s.hasSymbol (Text.lower name) = true

theorem Keyed.listsCurrent_iff (keyed : p.Keyed) (name : String) :
    p.ListsCurrent name (p.sharing name) ↔ p.NoStale name := by
  have first := keyed.listsFirst name
  let test (entry : String × Source) : Bool := entry.2.hasSymbol (Text.lower name)
  constructor
  · intro current entry member has
    have listed : entry ∈ p.entries.filter test := List.mem_filter.mpr ⟨member, has⟩
    have known : (p.entries.filter test).lookup entry.1 ≠ none := by
      rw [ne_eq, lookup_eq_none, not_not]
      exact List.mem_map_of_mem listed
    obtain ⟨s, found⟩ := Option.ne_none_iff_exists'.mp known
    have key : entry.1 = s.key := keyed (entry.1, s) (List.mem_of_mem_filter (mem_of_lookup found))
    rw [key] at found
    obtain ⟨counts, kept⟩ := (current.members s).mp ((first.members s).mpr found)
    exact ⟨s, by rw [← counts, get?_of_key (key.symm.trans (keyed entry member))], kept⟩
  · intro fresh
    refine ⟨?_, first.once, first.ordered⟩
    intro s
    rw [first.members]
    constructor
    · intro found
      obtain ⟨member, has⟩ := List.mem_filter.mp (mem_of_lookup found)
      obtain ⟨t, counts, kept⟩ := fresh _ member has
      have same := found.symm.trans (lookup_filter_of_pos test counts kept)
      obtain rfl := Option.some.inj same
      exact ⟨counts, kept⟩
    · rintro ⟨counts, has⟩
      exact lookup_filter_of_pos test counts has

/-- The search reports, for each path, the first version that has the name. These are the versions
that count exactly if none of them has lost the name. -/
theorem sharing_current_iff (changes : List Change) (name : String) :
    (after changes).ListsFirst name ((after changes).sharing name) ∧
      ((after changes).ListsCurrent name ((after changes).sharing name) ↔
        (after changes).NoStale name) :=
  have keyed := after_keyed changes
  ⟨keyed.listsFirst name, keyed.listsCurrent_iff name⟩

/-- A version that has lost a name does not hide an older one. -/
theorem sharing_of_lost (older newer : Source) (name : String) (same : older.key = newer.key)
    (kept : older.hasSymbol (Text.lower name) = true)
    (lost : newer.hasSymbol (Text.lower name) = false) :
    (after [.add older .workspace, .add newer .opened]).get? older.path = some newer ∧
      (after [.add older .workspace, .add newer .opened]).sharing name = [older] := by
  have entries : (after [.add older .workspace, .add newer .opened]).entries =
      [(newer.key, newer), (older.key, older)] := rfl
  constructor
  · rw [get?, entries, lookup_cons_eq]
    exact if_pos same
  · simp [sharing, entries, kept, lost]

private theorem ListsCurrent.has {found : List Source} {name : String}
    (current : p.ListsCurrent name found) (member : s ∈ found) {t : Source}
    (counts : p.get? s.path = some t) : t.hasSymbol (Text.lower name) = true := by
  obtain ⟨itself, has⟩ := (current.members s).mp member
  obtain rfl := Option.some.inj (counts.symm.trans itself)
  exact has

/-- A file of the workspace is still reported for a name that its open version has lost. -/
theorem stale_copy_reported :
    let older := Source.ofText Keywords.empty "c:/w/one.lsp" "(setq shared 1)"
    let newer := Source.ofText Keywords.empty "c:/w/one.lsp" "(setq other 2)"
    let p := after [.add older .workspace, .add newer .opened]
    p.get? older.path = some newer ∧ newer.hasSymbol (Text.lower "shared") = false ∧
      p.sharing "shared" = [older] ∧ ¬ p.ListsCurrent "shared" (p.sharing "shared") := by
  intro older newer p
  have kept : older.hasSymbol (Text.lower "shared") = true := by decide +kernel
  have lost : newer.hasSymbol (Text.lower "shared") = false := by decide +kernel
  obtain ⟨counts, reported⟩ := sharing_of_lost older newer "shared" rfl kept lost
  have member : older ∈ p.sharing "shared" := reported ▸ List.mem_singleton_self older
  exact ⟨counts, lost, reported, fun current =>
    absurd (current.has member counts) (lost ▸ Bool.false_ne_true)⟩

end LispIndex.Pools
