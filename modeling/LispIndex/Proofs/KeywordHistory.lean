import LispIndex.Keywords
import Mathlib.Data.Set.Card

/-!
Keywords are a set of names. After any history of names that are given and keyword lists that are
loaded, the names that belong to the language are those of the starting table and the normal forms
of what was given, each counted once. A list that cannot be loaded leaves the keywords as they were,
also when members of it had the right shape for something else.
-/

namespace LispIndex.Keywords

/-- The names that a JSON value lists: the texts in an array; in an object, the keys of three
members and the texts in a fourth, as far as these have the right shape. -/
inductive Lists : Json → String → Prop where
  | entry {items : List Json} {name : String} (member : .text (some name) ∈ items) :
    Lists (.array items) name
  | key {members inner : List (Option String × Json)} {key name : String} {value : Json}
    (known : key ∈ ["functions", "ambiguousFunctions", "enumerators"])
    (found : Json.member? members key = some (.object inner))
    (member : (some name, value) ∈ inner) : Lists (.object members) name
  | internal {members : List (Option String × Json)} {items : List Json} {name : String}
    (found : Json.member? members "internalLispFuncs" = some (.array items))
    (member : .text (some name) ∈ items) : Lists (.object members) name

/-- The JSON values that are keyword lists: arrays, and objects that have one of the four members in
the right shape. -/
inductive Accepted : Json → Prop where
  | array (items : List Json) : Accepted (.array items)
  | keyed {members inner : List (Option String × Json)} {key : String}
    (known : key ∈ ["functions", "ambiguousFunctions", "enumerators"])
    (found : Json.member? members key = some (.object inner)) : Accepted (.object members)
  | internal {members : List (Option String × Json)} {items : List Json}
    (found : Json.member? members "internalLispFuncs" = some (.array items)) :
    Accepted (.object members)

theorem Lists.accepted {value : Json} {name : String} (lists : Lists value name) :
    Accepted value := by
  cases lists with
  | entry member => exact .array _
  | key known found member => exact .keyed known found
  | internal found member => exact .internal found

section Adding

variable {k : Keywords} {names : List String} {name : String}

theorem add_append (k : Keywords) (names more : List String) :
    (k.add names).add more = k.add (names ++ more) := by
  simp only [add, List.foldl_append]

theorem mem_add : name ∈ (k.add names).added ↔
    name ∈ k.added ∨ ∃ given ∈ names, normalize given = name := by
  induction names generalizing k with
  | nil => simp [add]
  | cons first rest ih =>
    rw [← List.singleton_append, ← add_append, ih]
    have single : name ∈ (k.add [first]).added ↔ normalize first = name ∨ name ∈ k.added :=
      Std.TreeSet.mem_insert.trans (or_congr_left Std.compare_eq_iff_eq)
    rw [single, List.singleton_append, List.exists_mem_cons_iff, or_assoc, or_left_comm]

theorem mem_texts {items : List Json} : name ∈ texts items ↔ .text (some name) ∈ items := by
  rw [texts, List.mem_filterMap]
  constructor
  · rintro ⟨item, member, given⟩
    cases item <;> simp_all
  · intro member
    exact ⟨_, member, rfl⟩

private theorem foldl_addMember (recognized : Bool) (k : Keywords)
    (found : List (Option (List String))) :
    found.foldl addMember (recognized, k) =
      (recognized || found.any Option.isSome, k.add (found.filterMap id).flatten) := by
  induction found generalizing recognized k with
  | nil => simp [add]
  | cons first rest ih =>
    rw [List.foldl_cons]
    cases first with
    | none => simp [addMember, ih]
    | some names => simp [addMember, ih, add_append]

end Adding

section Members

variable {members : List (Option String × Json)} {names : List String} {key name : String}

theorem keysIn_eq_some_iff : keysIn members key = some names ↔
    ∃ inner, Json.member? members key = some (.object inner) ∧ inner.filterMap (·.1) = names := by
  rw [keysIn]
  split
  next inner found => simp [found]
  next other =>
    refine iff_of_false nofun ?_
    rintro ⟨inner, found, -⟩
    exact other inner found

theorem textsIn_eq_some_iff : textsIn members key = some names ↔
    ∃ items, Json.member? members key = some (.array items) ∧ texts items = names := by
  rw [textsIn]
  split
  next items found => simp [found]
  next other =>
    refine iff_of_false nofun ?_
    rintro ⟨items, found, -⟩
    exact other items found

def memberNames (members : List (Option String × Json)) : List (Option (List String)) :=
  keyedMembers.map (keysIn members) ++ [textsIn members arrayMember]

theorem mem_memberNames : some names ∈ memberNames members ↔
    (∃ key ∈ keyedMembers, keysIn members key = some names) ∨
      textsIn members arrayMember = some names := by
  rw [memberNames, List.mem_append, List.mem_map, List.mem_singleton, eq_comm (a := some names)]

theorem accepted_object_iff :
    Accepted (.object members) ↔ (memberNames members).any Option.isSome = true := by
  rw [List.any_eq_true]
  constructor
  · intro accepted
    cases accepted with
    | keyed known found =>
      have listed := mem_memberNames.mpr (.inl ⟨_, known, keysIn_eq_some_iff.mpr ⟨_, found, rfl⟩⟩)
      exact ⟨_, listed, rfl⟩
    | internal found =>
      have listed := mem_memberNames.mpr (.inr (textsIn_eq_some_iff.mpr ⟨_, found, rfl⟩))
      exact ⟨_, listed, rfl⟩
  · rintro ⟨entry, listed, filled⟩
    obtain ⟨names, rfl⟩ := Option.isSome_iff_exists.mp filled
    rcases mem_memberNames.mp listed with ⟨key, known, keyed⟩ | internal
    · obtain ⟨inner, found, -⟩ := keysIn_eq_some_iff.mp keyed
      exact .keyed known found
    · obtain ⟨items, found, -⟩ := textsIn_eq_some_iff.mp internal
      exact .internal found

theorem lists_object_iff :
    Lists (.object members) name ↔ name ∈ ((memberNames members).filterMap id).flatten := by
  simp only [List.mem_flatten, List.mem_filterMap, id_eq, exists_eq_right]
  constructor
  · intro lists
    cases lists with
    | key known found member =>
      refine ⟨_, mem_memberNames.mpr (.inl ⟨_, known, keysIn_eq_some_iff.mpr ⟨_, found, rfl⟩⟩), ?_⟩
      exact List.mem_filterMap.mpr ⟨_, member, rfl⟩
    | internal found member =>
      exact ⟨_, mem_memberNames.mpr (.inr (textsIn_eq_some_iff.mpr ⟨_, found, rfl⟩)),
        mem_texts.mpr member⟩
  · rintro ⟨names, listed, member⟩
    rcases mem_memberNames.mp listed with ⟨key, known, keyed⟩ | internal
    · obtain ⟨inner, found, rfl⟩ := keysIn_eq_some_iff.mp keyed
      obtain ⟨⟨spelled, value⟩, inside, named⟩ := List.mem_filterMap.mp member
      obtain rfl : spelled = some name := named
      exact .key known found inside
    · obtain ⟨items, found, rfl⟩ := textsIn_eq_some_iff.mp internal
      exact .internal found (mem_texts.mp member)

end Members

/-- Adding a keyword list either adds the names that it lists or fails and adds nothing. -/
theorem merge_cases (value : Json) :
    (Accepted value ∧ ∃ names, (∀ name, name ∈ names ↔ Lists value name) ∧
      ∀ k : Keywords, k.merge value = (.ok (), k.add names)) ∨
    (¬ Accepted value ∧ ∃ failure, ∀ k : Keywords, k.merge value = (.error failure, k)) := by
  cases value with
  | array items =>
    refine .inl ⟨.array items, texts items, fun name => mem_texts.trans ?_, fun _ => rfl⟩
    refine ⟨.entry, fun lists => ?_⟩
    cases lists with
    | entry member => exact member
  | object members =>
    have merged (k : Keywords) : k.merge (.object members) =
        (if (memberNames members).any Option.isSome then .ok () else .error .keywordMembers,
          k.add ((memberNames members).filterMap id).flatten) := by
      rw [merge, addIndex, ← memberNames, foldl_addMember, Bool.false_or]
    by_cases accepted : Accepted (.object members)
    · refine .inl ⟨accepted, _, fun name => lists_object_iff.symm, fun k => ?_⟩
      rw [merged, if_pos (accepted_object_iff.mp accepted)]
    · -- No member has the right shape, so that nothing was added before the failure.
      refine .inr ⟨accepted, .keywordMembers, fun k => ?_⟩
      have nothing : ((memberNames members).filterMap id).flatten = [] := by
        refine List.eq_nil_iff_forall_not_mem.mpr fun name member => ?_
        exact accepted (lists_object_iff.mpr member).accepted
      rw [merged, if_neg (mt accepted_object_iff.mpr accepted), nothing]
      rfl
  | null | bool | number | text => exact .inr ⟨nofun, .keywordShape, fun _ => rfl⟩

/-- Loading a text either adds the names of the keyword list that it holds or fails and leaves all
as it is. -/
theorem load_cases (text : String) :
    (∃ value names, Json.readPlain? text = some value ∧ Accepted value ∧
      (∀ name, name ∈ names ↔ Lists value name) ∧
      ∀ k : Keywords, k.load text =
        (.ok ((k.add names).added.size - k.added.size), k.add names)) ∨
    ((∀ value, Json.readPlain? text = some value → ¬ Accepted value) ∧
      ∃ failure, ∀ k : Keywords, k.load text = (.error failure, k)) := by
  cases read : Json.readPlain? text with
  | none =>
    refine .inr ⟨nofun, .json, fun k => ?_⟩
    rw [load, read]
  | some value =>
    rcases merge_cases value with ⟨accepted, names, listed, merged⟩ | ⟨refused, failure, merged⟩
    · refine .inl ⟨value, names, rfl, accepted, listed, fun k => ?_⟩
      rw [load, read]
      dsimp only
      rw [merged]
      rfl
    · refine .inr ⟨?_, failure, fun k => ?_⟩
      · intro other same
        rwa [← Option.some.inj same]
      · rw [load, read]
        dsimp only
        rw [merged]
        rfl

inductive Change where
  | add (names : List String)
  | load (text : String)

namespace Change

def apply (k : Keywords) : Change → Keywords
  | add names => k.add names
  | load text => (k.load text).2

inductive Gives : Change → String → Prop where
  | add {names : List String} {name : String} (member : name ∈ names) : Gives (.add names) name
  | load {text name : String} {value : Json} (read : Json.readPlain? text = some value)
    (accepted : Accepted value) (listed : Lists value name) : Gives (.load text) name

end Change

def run (start : Keywords) (history : List Change) : Keywords :=
  history.foldl Change.apply start

def Given (history : List Change) (name : String) : Prop :=
  ∃ change ∈ history, ∃ given, change.Gives given ∧ normalize given = name

theorem given_concat {history : List Change} {change : Change} {name : String} :
    Given (history ++ [change]) name ↔
      Given history name ∨ ∃ given, change.Gives given ∧ normalize given = name := by
  simp only [Given, List.mem_append, List.mem_singleton, or_and_right, exists_or, exists_eq_left]

structure Records (start : Keywords) (history : List Change) (k : Keywords) : Prop where
  table : k.hasBuiltin = start.hasBuiltin
  added : ∀ name, name ∈ k.added ↔ Given history name

theorem Records.apply {start k : Keywords} {history : List Change}
    (records : Records start history k) (change : Change) :
    Records start (history ++ [change]) (change.apply k) := by
  cases change with
  | add names =>
    refine ⟨records.table, fun name => mem_add.trans ?_⟩
    rw [given_concat, records.added]
    refine or_congr_right ⟨?_, ?_⟩
    · rintro ⟨given, member, same⟩
      exact ⟨given, .add member, same⟩
    · rintro ⟨given, gives, same⟩
      cases gives with
      | add member => exact ⟨given, member, same⟩
  | load text =>
    rw [Change.apply]
    rcases load_cases text with ⟨value, names, read, accepted, listed, loaded⟩ |
      ⟨refused, failure, left⟩
    · rw [loaded]
      refine ⟨records.table, fun name => mem_add.trans ?_⟩
      rw [given_concat, records.added]
      refine or_congr_right ⟨?_, ?_⟩
      · rintro ⟨given, member, same⟩
        exact ⟨given, .load read accepted ((listed given).mp member), same⟩
      · rintro ⟨given, gives, same⟩
        cases gives with
        | load again _ lists =>
          obtain rfl := Option.some.inj (read.symm.trans again)
          exact ⟨given, (listed given).mpr lists, same⟩
    · rw [left]
      refine ⟨records.table, fun name => ?_⟩
      rw [given_concat, records.added, iff_self_or]
      rintro ⟨given, gives, -⟩
      cases gives with
      | load read accepted _ => exact absurd accepted (refused _ read)

theorem run_concat (start : Keywords) (history : List Change) (change : Change) :
    start.run (history ++ [change]) = change.apply (start.run history) := by
  rw [run, List.foldl_append, List.foldl_cons, List.foldl_nil, run]

theorem run_records {start : Keywords} (bare : start.added = ∅) (history : List Change) :
    Records start history (start.run history) := by
  induction history using List.reverseRecOn with
  | nil =>
    refine ⟨rfl, fun name => iff_of_false ?_ nofun⟩
    rw [run, List.foldl_nil, bare]
    exact Std.TreeSet.not_mem_emptyc
  | append_singleton history change ih =>
    rw [run_concat]
    exact ih.apply change

section Counting

theorem builtinNames_nodup : builtinNames.Nodup := by
  -- The table is in the order of the bytes, which takes one comparison a name to check.
  have sorted : (builtinNames.map fun name =>
      name.toByteArray.data.toList.map UInt8.toNat).IsChain (· < ·) := by
    decide +kernel
  refine List.Nodup.of_map _ (sorted.pairwise.imp ?_)
  intro front back earlier
  exact ne_of_lt earlier

private theorem commonNames_builtin : ∀ name ∈ commonNames, name ∈ builtinNames := by
  decide +kernel

variable (k : Keywords)

def addedNames : Finset String :=
  k.added.toList.toFinset

def startNames : Finset String :=
  if k.hasBuiltin then builtinNames.toFinset else ∅

private theorem added_nodup : k.added.toList.Nodup :=
  Std.TreeSet.distinct_toList.imp fun apart same => apart (Std.compare_eq_iff_eq.mpr same)

theorem mem_addedNames {name : String} : name ∈ k.addedNames ↔ name ∈ k.added := by
  rw [addedNames, List.mem_toFinset, Std.TreeSet.mem_toList]

private theorem card_addedNames : k.addedNames.card = k.added.size := by
  rw [addedNames, List.toFinset_card_of_nodup k.added_nodup, Std.TreeSet.length_toList]

theorem starts_iff {name : String} : k.starts name = true ↔ name ∈ k.startNames := by
  rw [starts, startNames, builtinSet, Std.TreeSet.contains_ofList]
  cases k.hasBuiltin <;> simp

/-- The three tables together hold the starting names and the names that were added. -/
theorem isNative_iff {name : String} :
    k.isNative name = true ↔ name ∈ k.startNames ∪ k.addedNames := by
  rw [Finset.mem_union, mem_addedNames, ← starts_iff, isNative, starts, Bool.or_eq_true,
    Std.TreeSet.contains_iff_mem]
  -- The common names are in the table already.
  refine or_congr_left ?_
  rw [Bool.and_eq_true, Bool.and_eq_true, Bool.or_eq_true, builtinSet, Std.TreeSet.contains_ofList,
    List.contains_iff_mem, List.contains_iff_mem]
  exact and_congr_right fun _ => or_iff_right_of_imp (commonNames_builtin name)

/-- A name that was added counts only if the table does not have it already. -/
theorem size_eq_card : k.size = (k.startNames ∪ k.addedNames).card := by
  have table : (if k.hasBuiltin then builtinNames.length else 0) = k.startNames.card := by
    rw [startNames]
    split_ifs
    · exact (List.toFinset_card_of_nodup builtinNames_nodup).symm
    · rfl
  have others : k.added.toList.countP (!k.starts ·) = (k.addedNames \ k.startNames).card := by
    have same : k.addedNames \ k.startNames = (k.added.toList.filter (!k.starts ·)).toFinset := by
      ext name
      rw [Finset.mem_sdiff, addedNames, List.mem_toFinset, List.mem_toFinset, List.mem_filter,
        ← starts_iff, Bool.not_eq_true', Bool.not_eq_true]
    rw [same, List.toFinset_card_of_nodup (k.added_nodup.filter _), List.countP_eq_length_filter]
  rw [size, table, others, ← Finset.card_union_of_disjoint Finset.disjoint_sdiff,
    Finset.union_sdiff_self_eq_union]

private theorem added_size_sub (names : List String) :
    (k.add names).added.size - k.added.size = ((k.add names).addedNames \ k.addedNames).card := by
  have grows : k.addedNames ⊆ (k.add names).addedNames := by
    intro name member
    rw [mem_addedNames] at member ⊢
    exact mem_add.mpr (.inl member)
  rw [Finset.card_sdiff_of_subset grows, card_addedNames, card_addedNames]

variable {k} in
theorem mem_new {names : List String} {name : String} :
    name ∈ (k.add names).addedNames \ k.addedNames ↔
      (∃ given ∈ names, normalize given = name) ∧ name ∉ k.added := by
  rw [Finset.mem_sdiff, mem_addedNames, mem_addedNames, mem_add, or_and_right,
    or_iff_right fun both => both.2 both.1]

end Counting

structure Alike (k other : Keywords) : Prop where
  isNative : ∀ name, k.isNative name = other.isNative name
  size : k.size = other.size
  load : ∀ text, (k.load text).1 = (other.load text).1

private theorem added_size_congr {k other : Keywords} {names more : List String}
    (added : ∀ name, name ∈ k.added ↔ name ∈ other.added)
    (same : ∀ name, name ∈ names ↔ name ∈ more) :
    (k.add names).added.size - k.added.size = (other.add more).added.size - other.added.size := by
  rw [added_size_sub, added_size_sub]
  congr 1
  ext name
  rw [mem_new, mem_new, added]
  simp only [same]

private theorem Alike.of_added {k other : Keywords} (table : k.hasBuiltin = other.hasBuiltin)
    (added : ∀ name, name ∈ k.added ↔ name ∈ other.added) : Alike k other := by
  have names : k.startNames ∪ k.addedNames = other.startNames ∪ other.addedNames := by
    ext name
    rw [Finset.mem_union, Finset.mem_union, mem_addedNames, mem_addedNames, added, startNames,
      startNames, table]
  refine ⟨?_, ?_, ?_⟩
  · intro name
    rw [Bool.eq_iff_iff, isNative_iff, isNative_iff, names]
  · rw [size_eq_card, size_eq_card, names]
  · intro text
    rcases load_cases text with ⟨value, listed, -, -, -, loaded⟩ | ⟨-, failure, left⟩
    · rw [loaded, loaded, added_size_congr added fun _ => Iff.rfl]
    · rw [left, left]

section Loading

variable {k : Keywords} {text other : String} {value listed : Json}

theorem load_ok_iff : (∃ count, (k.load text).1 = .ok count) ↔
    ∃ value, Json.readPlain? text = some value ∧ Accepted value := by
  rcases load_cases text with ⟨value, names, read, accepted, -, loaded⟩ | ⟨refused, failure, left⟩
  · rw [loaded]
    exact iff_of_true ⟨_, rfl⟩ ⟨value, read, accepted⟩
  · rw [left]
    exact iff_of_false nofun fun ⟨value, read, accepted⟩ => refused value read accepted

theorem load_error {failure : Failure} (failed : (k.load text).1 = .error failure) :
    (k.load text).2 = k := by
  rcases load_cases text with ⟨value, names, -, -, -, loaded⟩ | ⟨-, reason, left⟩
  · rw [loaded] at failed
    cases failed
  · rw [left]

private theorem load_of_accepted (read : Json.readPlain? text = some value)
    (accepted : Accepted value) :
    ∃ names, (∀ name, name ∈ names ↔ Lists value name) ∧
      ∀ k : Keywords, k.load text =
        (.ok ((k.add names).added.size - k.added.size), k.add names) := by
  rcases load_cases text with ⟨found, names, again, -, listed, loaded⟩ | ⟨refused, -⟩
  · obtain rfl := Option.some.inj (read.symm.trans again)
    exact ⟨names, listed, loaded⟩
  · exact absurd accepted (refused value read)

theorem load_count {count : Nat} (read : Json.readPlain? text = some value)
    (counted : (k.load text).1 = .ok count) :
    {name | (∃ given, Lists value given ∧ normalize given = name) ∧ name ∉ k.added}.encard =
      count := by
  obtain ⟨found, again, accepted⟩ := load_ok_iff.mp ⟨count, counted⟩
  obtain rfl := Option.some.inj (again.symm.trans read)
  obtain ⟨names, listed, loaded⟩ := load_of_accepted read accepted
  rw [loaded] at counted
  obtain rfl := Except.ok.inj counted
  rw [added_size_sub, ← Set.encard_coe_eq_coe_finsetCard]
  congr 1
  ext name
  rw [Finset.mem_coe, mem_new]
  simp only [listed, Set.mem_ofPred_eq]

theorem load_alike (read : Json.readPlain? text = some value)
    (again : Json.readPlain? other = some listed) (accepted : Accepted value)
    (agreed : Accepted listed) (same : ∀ name, Lists value name ↔ Lists listed name) :
    (k.load text).1 = (k.load other).1 ∧ Alike (k.load text).2 (k.load other).2 := by
  obtain ⟨names, members, loaded⟩ := load_of_accepted read accepted
  obtain ⟨more, entries, joined⟩ := load_of_accepted again agreed
  have equal (name : String) : name ∈ names ↔ name ∈ more := by
    rw [members, entries, same]
  rw [loaded, joined, added_size_congr (fun _ => Iff.rfl) equal]
  refine ⟨rfl, .of_added rfl fun name => ?_⟩
  rw [mem_add, mem_add]
  simp only [equal]

end Loading

structure Reflects (start : Keywords) (table : List String) (history : List Change) : Prop where
  isNative_iff : ∀ name, (start.run history).isNative name = true ↔
    name ∈ table ∨ Given history name
  size : {name | name ∈ table ∨ Given history name}.encard = (start.run history).size
  loads_iff : ∀ text, (∃ count, ((start.run history).load text).1 = .ok count) ↔
    ∃ value, Json.readPlain? text = some value ∧ Accepted value
  failed : ∀ text failure, ((start.run history).load text).1 = .error failure →
    ((start.run history).load text).2 = start.run history
  count : ∀ text value count, Json.readPlain? text = some value →
    ((start.run history).load text).1 = .ok count →
      {name | (∃ given, Lists value given ∧ normalize given = name) ∧
        ¬ Given history name}.encard = count
  /-- It does not show in which order and how often the names were given. -/
  anyOrder : ∀ other, (∀ name, Given other name ↔ Given history name) →
    Alike (start.run other) (start.run history)
  /-- Nor does it show in which order a list has them. -/
  anyListing : ∀ text other value listed, Json.readPlain? text = some value →
    Json.readPlain? other = some listed → Accepted value → Accepted listed →
    (∀ name, Lists value name ↔ Lists listed name) →
      ((start.run history).load text).1 = ((start.run history).load other).1 ∧
        Alike ((start.run history).load text).2 ((start.run history).load other).2

private theorem reflects_of_bare {start : Keywords} (bare : start.added = ∅) {table : List String}
    (named : ∀ name, name ∈ start.startNames ↔ name ∈ table) (history : List Change) :
    Reflects start table history := by
  have records := run_records bare history
  have natives (name : String) :
      name ∈ (start.run history).startNames ∪ (start.run history).addedNames ↔
        name ∈ table ∨ Given history name := by
    rw [Finset.mem_union, mem_addedNames, records.added, startNames, records.table, ← startNames,
      named]
  refine ⟨?_, ?_, fun _ => load_ok_iff, fun _ _ => load_error, ?_, ?_,
    fun _ _ _ _ => load_alike⟩
  · intro name
    rw [isNative_iff, natives]
  · rw [size_eq_card, ← Set.encard_coe_eq_coe_finsetCard]
    congr 1
    ext name
    exact (natives name).symm
  · intro text value count read counted
    rw [← load_count read counted]
    simp only [records.added]
  · intro other same
    have others := run_records bare other
    refine .of_added (others.table.trans records.table.symm) fun name => ?_
    rw [others.added, records.added, same]

/-- Keywords are a set, from either start and behind every history; a load that fails changes
nothing, and one that succeeds counts the names that are new. -/
theorem run_reflects (history : List Change) :
    Reflects .builtin builtinNames history ∧ Reflects .empty [] history := by
  constructor
  · exact reflects_of_bare rfl (fun name => List.mem_toFinset) history
  · refine reflects_of_bare rfl (fun name => ?_) history
    exact iff_of_false (Finset.notMem_empty name) List.not_mem_nil

example : (empty.load "[\"A\", \" a \", 5]").1 = .ok 1 := by decide +kernel

end LispIndex.Keywords
