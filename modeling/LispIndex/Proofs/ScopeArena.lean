import LispIndex.Proofs.OutlineOrder
import LispIndex.Scope.Resolve

/-!
The arena of scopes. Hosts and references are numbered entries of two arrays, linked by their
numbers. The links form a tree under the document, every reference hangs at one place in it, and all
of it stands in the order of the source, so that looking an atom up by bisection is exact.
-/

namespace LispIndex

namespace ScopeTree

def itemsIn (t : ScopeTree) (host : Nat) : List ScopeItem :=
  (t.hosts[host]?.map fun h => h.items.toList).getD []

def rangeOf? (t : ScopeTree) : ScopeItem → Option Range
  | .reference id => t.references[id]?.map Reference.range
  | .host id => t.hosts[id]?.map Host.range

def Precedes (t : ScopeTree) (left right : ScopeItem) : Prop :=
  ∃ a b, t.rangeOf? left = some a ∧ t.rangeOf? right = some b ∧ a.stop ≤ b.start

/-- The arena of a document. Host 0 is the document; every other host is an item of its parent and
of no other host. A reference is an item of its owner, or else the name of its owner. -/
structure Arranged (t : ScopeTree) : Prop where
  document : ∃ h, t.hosts[0]? = some h ∧ h.kind = .root ∧ h.parent = none
  outermost : ∀ q, (t.itemsIn q).count (.host 0) = 0
  inner : ∀ id h, t.hosts[id + 1]? = some h → h.kind ≠ .root ∧
    ∃ p ≤ id, ∃ owner, h.parent = some p ∧ t.hosts[p]? = some owner ∧
      h.range.Within owner.range ∧
      ∀ q, (t.itemsIn q).count (.host (id + 1)) = if q = p then 1 else 0
  reference : ∀ id r, t.references[id]? = some r → ∃ owner, t.hosts[r.owner]? = some owner ∧
    r.range.Within owner.range ∧
    (r.isDefinition = false ∧
        (∀ q, (t.itemsIn q).count (.reference id) = if q = r.owner then 1 else 0) ∧
        (∀ (q : Nat) (h : Host), t.hosts[q]? = some h → h.named ≠ some id) ∨
      r.isDefinition = true ∧ (owner.kind = .defun ∨ owner.kind = .defunQ) ∧
        (∀ q, (t.itemsIn q).count (.reference id) = 0) ∧
        ∀ (q : Nat) (h : Host), t.hosts[q]? = some h → (h.named = some id ↔ q = r.owner))
  existing : ∀ q, ∀ item ∈ t.itemsIn q, ∃ range, t.rangeOf? item = some range
  naming : ∀ (q : Nat) (h : Host) (id : Nat), t.hosts[q]? = some h → h.named = some id →
    id < t.references.size
  sorted : t.references.toList.Pairwise fun left right => left.index < right.index
  ordered : ∀ q, (t.itemsIn q).Pairwise t.Precedes
  found : ∀ index id, t.referenceAt? index = some id ↔
    ∃ r, t.references[id]? = some r ∧ r.index = index

end ScopeTree

theorem HostKind.isNamed_iff {kind : HostKind} :
    kind.isNamed = true ↔ kind = .defun ∨ kind = .defunQ := by
  cases kind <;> decide

def Host.shell (h : Host) : Host :=
  { h with items := #[] }

namespace ScopeTree

section Steps

variable (t : ScopeTree) (host : Nat) (bound : Bool) (a : Atom) (kind : HostKind) (range : Range)
  (name : Option Atom) (q id : Nat)

def shell? : Option Host :=
  t.hosts[q]?.map Host.shell

theorem shell?_eq_some_iff {h : Host} :
    t.shell? q = some h ↔ ∃ g, t.hosts[q]? = some g ∧ g.shell = h :=
  Option.map_eq_some_iff

private theorem lt_of_shell {h : Host} (found : t.shell? q = some h) : q < t.hosts.size := by
  obtain ⟨g, here, -⟩ := (t.shell?_eq_some_iff q).mp found
  exact (Array.getElem?_eq_some_iff.mp here).1

private theorem shell?_addReference :
    (t.addReference host (roleOf bound) a).shell? q = t.shell? q := by
  rw [addReference_eq, shell?, Array.getElem?_modify]
  split
  · rw [Option.map_map]
    rfl
  · rfl

private theorem shell?_enter : (t.enter host kind range name).shell? q =
    if q = t.hosts.size then
      some ⟨kind, some host, #[], name.map fun _ => t.references.size, range⟩
    else t.shell? q := by
  rw [enter, shell?, Array.getElem?_push, Array.size_modify, Array.getElem?_modify]
  split
  · rfl
  · split
    · rw [Option.map_map]
      rfl
    · rfl

private theorem itemsIn_addReference (inside : host < t.hosts.size) :
    (t.addReference host (roleOf bound) a).itemsIn q =
      t.itemsIn q ++ if q = host then [.reference t.references.size] else [] := by
  rw [addReference_eq, itemsIn, itemsIn, Array.getElem?_modify]
  by_cases here : host = q
  · subst here
    simp [Host.hold, inside]
  · rw [if_neg here, if_neg (Ne.symm here), List.append_nil]

private theorem itemsIn_enter (inside : host < t.hosts.size) :
    (t.enter host kind range name).itemsIn q =
      t.itemsIn q ++ if q = host then [.host t.hosts.size] else [] := by
  rw [enter, itemsIn, itemsIn, Array.getElem?_push, Array.size_modify, Array.getElem?_modify]
  by_cases last : q = t.hosts.size
  · rw [if_pos last, if_neg (by omega), last, Array.getElem?_eq_none (Nat.le_refl _)]
    rfl
  · by_cases here : host = q
    · subst here
      simp [Host.hold, inside, last]
    · rw [if_neg last, if_neg here, if_neg (Ne.symm here), List.append_nil]

private theorem references_addReference : (t.addReference host (roleOf bound) a).references[id]? =
    if id = t.references.size then some ⟨a.name, a.index, a.range, false, bound, host⟩
    else t.references[id]? := by
  rw [addReference_eq, Array.getElem?_push]

private theorem references_enter : (t.enter host kind range name).references[id]? =
    if id = t.references.size then
      name.map fun a => ⟨a.name, a.index, a.range, true, false, t.hosts.size⟩
    else t.references[id]? := by
  rw [enter, Array.getElem?_append]
  by_cases last : id = t.references.size
  · subst last
    cases name <;> simp
  · rw [if_neg last]
    split
    · rfl
    · have short : ((name.toList.map fun a => (⟨a.name, a.index, a.range, true, false,
          t.hosts.size⟩ : Reference)).toArray).size ≤ 1 := by cases name <;> simp
      rw [Array.getElem?_eq_none (by omega), Array.getElem?_eq_none (by omega)]

private theorem rangeOf?_enter :
    (t.enter host kind range name).rangeOf? (.host t.hosts.size) = some range := by
  rw [enter, rangeOf?, Array.getElem?_push, Array.size_modify, if_pos rfl]
  rfl

end Steps

structure Extends (t u : ScopeTree) : Prop where
  shells : ∀ q h, t.shell? q = some h → u.shell? q = some h
  references : ∀ (id : Nat) (r : Reference), t.references[id]? = some r → u.references[id]? = some r

namespace Extends

variable {t u w : ScopeTree}

theorem trans (first : t.Extends u) (second : u.Extends w) : t.Extends w :=
  ⟨fun q h found => second.shells q h (first.shells q h found),
    fun id r found => second.references id r (first.references id r found)⟩

private theorem addReference (t : ScopeTree) (host : Nat) (bound : Bool) (a : Atom) :
    t.Extends (t.addReference host (roleOf bound) a) := by
  constructor
  · intro q h found
    rw [shell?_addReference, found]
  · intro id r found
    have inside := (Array.getElem?_eq_some_iff.mp found).1
    rw [references_addReference, if_neg (by omega), found]

private theorem enter (t : ScopeTree) (host : Nat) (kind : HostKind) (range : Range)
    (name : Option Atom) :
    t.Extends (t.enter host kind range name) := by
  constructor
  · intro q h found
    have inside := t.lt_of_shell q found
    rw [shell?_enter, if_neg (by omega), found]
  · intro id r found
    have inside := (Array.getElem?_eq_some_iff.mp found).1
    rw [references_enter, if_neg (by omega), found]

private theorem grow (t : ScopeTree) (host : Nat) (entries : List ScopeEntry) :
    t.Extends (t.grow host entries) := by
  fun_induction ScopeTree.grow t host entries with
  | case1 => exact ⟨fun _ _ found => found, fun _ _ found => found⟩
  | case2 t host bound a rest ih => exact (addReference t host bound a).trans ih
  | case3 t host kind range name inside rest within ih =>
    exact (enter t host kind range name).trans (within.trans ih)

private theorem ranges (larger : t.Extends u) (item : ScopeItem) (range : Range)
    (found : t.rangeOf? item = some range) : u.rangeOf? item = some range := by
  cases item with
  | reference id =>
    obtain ⟨r, here, rfl⟩ := Option.map_eq_some_iff.mp found
    exact Option.map_eq_some_iff.mpr ⟨r, larger.references id r here, rfl⟩
  | host id =>
    obtain ⟨h, here, rfl⟩ := Option.map_eq_some_iff.mp found
    have shell := larger.shells id h.shell ((t.shell?_eq_some_iff id).mpr ⟨h, here, rfl⟩)
    obtain ⟨g, there, same⟩ := (u.shell?_eq_some_iff id).mp shell
    have range : g.shell.range = h.shell.range := congrArg Host.range same
    exact Option.map_eq_some_iff.mpr ⟨g, there, range⟩

theorem precedes (larger : t.Extends u) {left right : ScopeItem}
    (before : t.Precedes left right) : u.Precedes left right := by
  obtain ⟨a, b, first, second, order⟩ := before
  exact ⟨a, b, larger.ranges left a first, larger.ranges right b second, order⟩

end Extends

private theorem grow_itemsIn (t : ScopeTree) (host q : Nat) (entries : List ScopeEntry)
    (inside : host < t.hosts.size) (other : q ≠ host) (known : q < t.hosts.size) :
    (t.grow host entries).itemsIn q = t.itemsIn q := by
  rw [itemsIn, itemsIn, grow_hosts t host entries inside, Array.getElem?_append, Array.size_modify,
    if_pos known, Array.getElem?_modify, if_neg other.symm]

def ownerAs (t : ScopeTree) (definition : Bool) (id : Nat) : Option Nat :=
  (t.references[id]?.filter (·.isDefinition == definition)).map Reference.owner

private theorem ownerAs_of_found {t : ScopeTree} {id : Nat} {r : Reference}
    (found : t.references[id]? = some r) (definition : Bool) :
    t.ownerAs definition id = if r.isDefinition = definition then some r.owner else none := by
  rw [ownerAs, found, Option.filter_some]
  cases r.isDefinition <;> cases definition <;> rfl

private theorem found_of_ownerAs {t : ScopeTree} {definition : Bool} {id owner : Nat}
    (owned : t.ownerAs definition id = some owner) :
    ∃ r, t.references[id]? = some r ∧ r.owner = owner := by
  obtain ⟨r, kept, owner⟩ := Option.map_eq_some_iff.mp owned
  exact ⟨r, (Option.filter_eq_some_iff.mp kept).1, owner⟩

theorem ownerAs_size (t : ScopeTree) (definition : Bool) :
    t.ownerAs definition t.references.size = none := by
  rw [ownerAs, Array.getElem?_eq_none (Nat.le_refl _)]
  rfl

private theorem ownerAs_addReference (t : ScopeTree) (host : Nat) (bound : Bool) (a : Atom)
    (definition : Bool) (id : Nat) :
    (t.addReference host (roleOf bound) a).ownerAs definition id =
      if id = t.references.size then if definition then none else some host
      else t.ownerAs definition id := by
  rw [ownerAs, references_addReference]
  split
  · cases definition <;> rfl
  · rfl

private theorem ownerAs_enter (t : ScopeTree) (host : Nat) (kind : HostKind) (range : Range)
    (name : Option Atom) (definition : Bool) (id : Nat) :
    (t.enter host kind range name).ownerAs definition id =
      if id = t.references.size then if definition then name.map fun _ => t.hosts.size else none
      else t.ownerAs definition id := by
  rw [ownerAs, references_enter]
  split
  · cases definition <;> cases name <;> rfl
  · rfl

structure Linked (t : ScopeTree) : Prop where
  document : ∃ h, t.shell? 0 = some h ∧ h.kind = .root ∧ h.parent = none
  inner : ∀ id h, t.shell? (id + 1) = some h → h.kind ≠ .root ∧ ∃ p ≤ id, h.parent = some p
  hosts : ∀ q id, (t.itemsIn q).count (.host id) =
    if (t.shell? id).bind Host.parent = some q then 1 else 0
  references : ∀ q id, (t.itemsIn q).count (.reference id) =
    if t.ownerAs false id = some q then 1 else 0
  named : ∀ q id, (t.shell? q).bind Host.named = some id ↔ t.ownerAs true id = some q
  kinds : ∀ q h, t.shell? q = some h → h.named.isSome = true → h.kind.isNamed = true
  owners : ∀ (id : Nat) (r : Reference), t.references[id]? = some r → r.owner < t.hosts.size

private theorem count_added (q host : Nat) (item other : ScopeItem) :
    (if q = host then [item] else []).count other = if q = host ∧ item = other then 1 else 0 := by
  split
  · rename_i here
    simp [here, List.count_singleton]
  · rename_i apart
    simp [apart]

namespace Linked

variable {t : ScopeTree} {host : Nat}

private theorem addReference (linked : t.Linked) (inside : host < t.hosts.size) (bound : Bool)
    (a : Atom) :
    (t.addReference host (roleOf bound) a).Linked := by
  constructor
  · simp only [shell?_addReference]
    exact linked.document
  · simp only [shell?_addReference]
    exact linked.inner
  · intro q id
    rw [itemsIn_addReference _ _ _ _ _ inside, List.count_append, linked.hosts, count_added,
      shell?_addReference]
    simp
  · intro q id
    rw [itemsIn_addReference _ _ _ _ _ inside, List.count_append, linked.references, count_added,
      ownerAs_addReference]
    by_cases last : id = t.references.size
    · subst last
      simp [ownerAs_size, eq_comm]
    · simp [last, Ne.symm last]
  · intro q id
    rw [shell?_addReference, linked.named, ownerAs_addReference]
    by_cases last : id = t.references.size
    · subst last
      simp [ownerAs_size]
    · rw [if_neg last]
  · simp only [shell?_addReference]
    exact linked.kinds
  · intro id r found
    have size : (t.addReference host (roleOf bound) a).hosts.size = t.hosts.size := by
      rw [addReference_eq, Array.size_modify]
    rw [references_addReference] at found
    rw [size]
    split at found
    · obtain rfl := Option.some.inj found
      exact inside
    · exact linked.owners id r found

private theorem enter (linked : t.Linked) (inside : host < t.hosts.size) {kind : HostKind}
    (inner : kind ≠ .root) (range : Range) {name : Option Atom}
    (kinds : name.isSome = true → kind.isNamed = true) :
    (t.enter host kind range name).Linked := by
  have fresh : t.shell? t.hosts.size = none := by
    rw [shell?, Array.getElem?_eq_none (Nat.le_refl _)]
    rfl
  constructor
  · rw [shell?_enter, if_neg (by omega)]
    exact linked.document
  · intro id h found
    rw [shell?_enter] at found
    split at found
    · obtain rfl := Option.some.inj found
      exact ⟨inner, host, by omega, rfl⟩
    · exact linked.inner id h found
  · intro q id
    rw [itemsIn_enter _ _ _ _ _ _ inside, List.count_append, linked.hosts, count_added,
      shell?_enter]
    by_cases last : id = t.hosts.size
    · subst last
      simp [fresh, eq_comm]
    · simp [last, Ne.symm last]
  · intro q id
    rw [itemsIn_enter _ _ _ _ _ _ inside, List.count_append, linked.references, count_added,
      ownerAs_enter]
    by_cases last : id = t.references.size
    · subst last
      simp [ownerAs_size]
    · simp [last]
  · intro q id
    rw [shell?_enter, ownerAs_enter]
    have older : t.ownerAs true id ≠ some t.hosts.size := by
      intro found
      obtain ⟨r, here, owner⟩ := found_of_ownerAs found
      have bound := linked.owners id r here
      omega
    by_cases new : q = t.hosts.size
    · by_cases last : id = t.references.size
      · subst new last
        cases name <;> simp
      · subst new
        cases name <;> simp [last, Ne.symm last, older]
    · rw [if_neg new, linked.named]
      by_cases last : id = t.references.size
      · subst last
        cases name <;> simp [ownerAs_size, Ne.symm new]
      · rw [if_neg last]
  · intro q h found given
    rw [shell?_enter] at found
    split at found
    · obtain rfl := Option.some.inj found
      exact kinds (by simpa using given)
    · exact linked.kinds q h found given
  · intro id r found
    rw [references_enter] at found
    rw [enter_size]
    split at found
    · obtain ⟨a, -, rfl⟩ := Option.map_eq_some_iff.mp found
      exact Nat.lt_succ_self _
    · exact Nat.lt_succ_of_lt (linked.owners id r found)

private theorem grow {atoms : Array Atom} {first stop : Nat} {entries : List ScopeEntry}
    (lies : Outline.Lies atoms first stop entries) (linked : t.Linked)
    (inside : host < t.hosts.size) : (t.grow host entries).Linked := by
  induction lies generalizing t host with
  | nil bound => rwa [ScopeTree.grow]
  | @reference first i stop bound a rest low found later ih =>
    rw [ScopeTree.grow]
    apply ih (linked.addReference inside bound a)
    rwa [addReference_eq, Array.size_modify]
  | @host first left middle right stop kind range name within rest notRoot kinds low spans front
      named lies later ih behind =>
    rw [ScopeTree.grow]
    have entered := enter_size t host kind range name
    have grown := le_grow (t.enter host kind range name) t.hosts.size within (by omega)
    exact behind (ih (linked.enter inside notRoot range kinds) (by omega)) (by omega)

end Linked

structure Ordered (t : ScopeTree) : Prop where
  sorted : t.references.toList.Pairwise fun left right => left.index < right.index
  items : ∀ q, (t.itemsIn q).Pairwise t.Precedes
  references : ∀ r ∈ t.references.toList, ∃ owner, t.shell? r.owner = some owner ∧
    r.range.Within owner.range
  hosts : ∀ q h p, t.shell? q = some h → h.parent = some p → ∃ owner, t.shell? p = some owner ∧
    h.range.Within owner.range

/-- The tree takes entries that lie from `first` up to `stop` into a host: the range of the host is
around all of them, and what the tree has so far lies before them. -/
structure Ready (atoms : Array Atom) (t : ScopeTree) (host first stop : Nat) : Prop where
  around : ∃ h, t.shell? host = some h ∧ ∀ left right range, first ≤ left → right ≤ stop →
    Spans atoms left right range → range.Within h.range
  items : ∀ item ∈ t.itemsIn host, ∃ range, t.rangeOf? item = some range ∧
    ∃ j b, j < first ∧ atoms[j]? = some b ∧ range.stop = b.stop
  references : ∀ r ∈ t.references.toList, r.index < first

namespace Ready

variable {atoms : Array Atom} {t u : ScopeTree} {host first middle stop : Nat}

theorem inside (ready : Ready atoms t host first stop) : host < t.hosts.size := by
  obtain ⟨h, found, -⟩ := ready.around
  exact t.lt_of_shell host found

theorem weaken (ready : Ready atoms t host first stop) (low : first ≤ middle) :
    Ready atoms t host middle stop := by
  obtain ⟨⟨h, found, encloses⟩, items, references⟩ := ready
  refine ⟨⟨h, found, fun left right range above => encloses left right range (low.trans above)⟩,
    ?_, fun r member => Nat.lt_of_lt_of_le (references r member) low⟩
  intro item member
  obtain ⟨range, here, j, b, earlier, last, ends⟩ := items item member
  exact ⟨range, here, j, b, Nat.lt_of_lt_of_le earlier low, last, ends⟩

/-- One more item, behind the others. -/
theorem extend (ready : Ready atoms t host first stop) (larger : t.Extends u) {left right : Nat}
    {range : Range} {item : ScopeItem} (low : first ≤ left) (spans : Spans atoms left right range)
    (added : u.itemsIn host = t.itemsIn host ++ [item]) (here : u.rangeOf? item = some range)
    (references : ∀ r ∈ u.references.toList, r.index < right) : Ready atoms u host right stop := by
  obtain ⟨filled, a, b, start, last, rfl⟩ := spans
  have later := ready.weaken (low.trans filled.le)
  obtain ⟨h, found, encloses⟩ := later.around
  refine ⟨⟨h, larger.shells host h found, encloses⟩, ?_, references⟩
  intro other member
  rw [added] at member
  rcases List.mem_append.mp member with old | new
  · obtain ⟨range, known, ends⟩ := later.items other old
    exact ⟨range, larger.ranges other range known, ends⟩
  · obtain rfl := List.mem_singleton.mp new
    exact ⟨_, here, right - 1, b, by omega, last, rfl⟩

end Ready

namespace Ordered

variable {t u : ScopeTree} {d : Document} {host first left right stop : Nat}

private theorem extend_items (ordered : t.Ordered) (sourced : d.Sourced)
    (ready : Ready d.atoms t host first stop) (larger : t.Extends u) {range : Range}
    {item : ScopeItem} (low : first ≤ left) (spans : Spans d.atoms left right range)
    (here : u.rangeOf? item = some range)
    (added : ∀ q, u.itemsIn q = t.itemsIn q ++ if q = host then [item] else []) (q : Nat) :
    (u.itemsIn q).Pairwise u.Precedes := by
  obtain ⟨filled, a, b, start, last, rfl⟩ := spans
  have kept : (t.itemsIn q).Pairwise u.Precedes :=
    (ordered.items q).imp fun before => larger.precedes before
  rw [added q]
  split
  · rename_i same
    subst same
    refine List.pairwise_append.mpr ⟨kept, List.pairwise_singleton _ _, ?_⟩
    intro other old new member
    obtain rfl := List.mem_singleton.mp member
    obtain ⟨range, known, j, c, earlier, final, ends⟩ := ready.items other old
    refine ⟨range, _, larger.ranges other range known, here, ?_⟩
    rw [ends]
    exact sourced.follow j left c a final start (Nat.lt_of_lt_of_le earlier low)
  · rwa [List.append_nil]

/-- A step keeps the order: it adds one item to the host, and references and hosts that lie inside
their owners, all of them behind what the tree has. -/
theorem extend (ordered : t.Ordered) (sourced : d.Sourced)
    (ready : Ready d.atoms t host first stop) (larger : t.Extends u) {range : Range}
    {item : ScopeItem} {news : List Reference} (low : first ≤ left)
    (spans : Spans d.atoms left right range) (here : u.rangeOf? item = some range)
    (added : ∀ q, u.itemsIn q = t.itemsIn q ++ if q = host then [item] else [])
    (listed : u.references.toList = t.references.toList ++ news) (single : news.length ≤ 1)
    (fresh : ∀ r ∈ news, left ≤ r.index ∧ ∃ owner, u.shell? r.owner = some owner ∧
      r.range.Within owner.range)
    (hosts : ∀ q h p, u.shell? q = some h → h.parent = some p → t.shell? q = some h ∨
      ∃ owner, u.shell? p = some owner ∧ h.range.Within owner.range) : u.Ordered := by
  refine ⟨?_, ordered.extend_items sourced ready larger low spans here added, ?_, ?_⟩
  · rw [listed]
    refine List.pairwise_append.mpr ⟨ordered.sorted, ?_, ?_⟩
    · match news, single with
      | [], _ => exact .nil
      | [r], _ => exact List.pairwise_singleton _ r
    · intro r old new member
      have before := ready.references r old
      have behind := (fresh new member).1
      omega
  · intro r member
    rw [listed] at member
    rcases List.mem_append.mp member with old | new
    · obtain ⟨owner, known, within⟩ := ordered.references r old
      exact ⟨owner, larger.shells _ owner known, within⟩
    · exact (fresh r new).2
  · intro q h p known parent
    rcases hosts q h p known parent with old | new
    · obtain ⟨owner, found, within⟩ := ordered.hosts q h p old parent
      exact ⟨owner, larger.shells p owner found, within⟩
    · exact new

private theorem addReference (ordered : t.Ordered) (sourced : d.Sourced)
    (ready : Ready d.atoms t host first stop) {i : Nat} {a : Atom} (low : first ≤ i)
    (high : i < stop) (found : d.atoms[i]? = some a) (bound : Bool) :
    (t.addReference host (roleOf bound) a).Ordered ∧
      Ready d.atoms (t.addReference host (roleOf bound) a) host (i + 1) stop := by
  have larger := Extends.addReference t host bound a
  have spans := Spans.single found
  have index := sourced.indexed i a found
  have listed : (t.addReference host (roleOf bound) a).references.toList =
      t.references.toList ++ [⟨a.name, a.index, a.range, false, bound, host⟩] := by
    rw [addReference_eq, Array.toList_push]
  have here : (t.addReference host (roleOf bound) a).rangeOf? (.reference t.references.size) =
      some a.range := by
    rw [rangeOf?, references_addReference, if_pos rfl]
    rfl
  have added (q : Nat) := itemsIn_addReference t host bound a q ready.inside
  constructor
  · refine ordered.extend sourced ready larger low spans here added listed (Nat.le_refl 1) ?_ ?_
    · intro r member
      obtain rfl := List.mem_singleton.mp member
      obtain ⟨h, known, encloses⟩ := ready.around
      exact ⟨index.ge, h, larger.shells host h known, encloses i (i + 1) a.range low high spans⟩
    · intro q h p known parent
      rw [shell?_addReference] at known
      exact .inl known
  · refine ready.extend larger low spans ((added host).trans (by rw [if_pos rfl])) here ?_
    intro r member
    rw [listed] at member
    rcases List.mem_append.mp member with old | new
    · have before := ready.references r old
      omega
    · obtain rfl := List.mem_singleton.mp new
      exact Nat.lt_succ_of_le index.le

private theorem enter (ordered : t.Ordered) (sourced : d.Sourced)
    (ready : Ready d.atoms t host first stop) (kind : HostKind) {range : Range}
    {name : Option Atom} {middle : Nat} (low : first ≤ left) (high : right ≤ stop)
    (spans : Spans d.atoms left right range) (front : left ≤ middle) (back : middle ≤ right)
    (named : ∀ a, name = some a → ∃ i, left ≤ i ∧ i < middle ∧ d.atoms[i]? = some a) :
    (t.enter host kind range name).Ordered ∧
      Ready d.atoms (t.enter host kind range name) t.hosts.size middle right := by
  have larger := Extends.enter t host kind range name
  have inside := ready.inside
  have new : (t.enter host kind range name).shell? t.hosts.size =
      some ⟨kind, some host, #[], name.map fun _ => t.references.size, range⟩ := by
    rw [shell?_enter, if_pos rfl]
  have here := rangeOf?_enter t host kind range name
  have added (q : Nat) := itemsIn_enter t host kind range name q inside
  -- The name of the host is the only new reference.
  obtain ⟨names, single, listed, fresh⟩ : ∃ names : List Reference, names.length ≤ 1 ∧
      (t.enter host kind range name).references.toList = t.references.toList ++ names ∧
      ∀ r ∈ names, r.owner = t.hosts.size ∧ r.range.Within range ∧ left ≤ r.index ∧
        r.index < middle := by
    refine ⟨_, ?_, Array.toList_append, ?_⟩
    · cases name <;> simp
    · intro r member
      obtain ⟨a, given, rfl⟩ := List.mem_map.mp member
      obtain ⟨i, above, below, found⟩ := named a (Option.mem_toList.mp given)
      have index := sourced.indexed i a found
      have within := sourced.within (Spans.single found) spans above (by omega)
      exact ⟨rfl, within, above.trans index.ge, Nat.lt_of_le_of_lt index.le below⟩
  constructor
  · refine ordered.extend sourced ready larger low spans here added listed single ?_ ?_
    · intro r member
      obtain ⟨owner, within, above, -⟩ := fresh r member
      exact ⟨above, _, owner ▸ new, within⟩
    · intro q h p known parent
      rw [shell?_enter] at known
      split at known
      · obtain rfl := Option.some.inj known
        obtain rfl := Option.some.inj parent
        obtain ⟨owner, found, encloses⟩ := ready.around
        have within := encloses left right range low high spans
        exact .inr ⟨owner, larger.shells host owner found, within⟩
      · exact .inl known
  · refine ⟨⟨_, new, ?_⟩, ?_, ?_⟩
    · intro start last part above below within
      exact sourced.within within spans (front.trans above) below
    · intro item member
      have empty : t.itemsIn t.hosts.size = [] := by
        rw [itemsIn, Array.getElem?_eq_none (Nat.le_refl _)]
        rfl
      rw [added, empty, if_neg (by omega)] at member
      cases member
    · intro r member
      rw [listed] at member
      rcases List.mem_append.mp member with old | named
      · have before := ready.references r old
        omega
      · exact (fresh r named).2.2.2

private theorem grow (sourced : d.Sourced) {entries : List ScopeEntry}
    (lies : Outline.Lies d.atoms first stop entries) (ordered : t.Ordered)
    (ready : Ready d.atoms t host first stop) :
    (t.grow host entries).Ordered ∧ Ready d.atoms (t.grow host entries) host stop stop := by
  induction lies generalizing t host with
  | nil bound =>
    rw [ScopeTree.grow]
    exact ⟨ordered, ready.weaken bound⟩
  | @reference first i stop bound a rest low found later ih =>
    rw [ScopeTree.grow]
    obtain ⟨next, after⟩ := ordered.addReference sourced ready low later.bound found bound
    exact ih next after
  | @host first left middle right stop kind range name inside rest notRoot kinds low spans front
      named within later ih behind =>
    rw [ScopeTree.grow]
    have known := ready.inside
    obtain ⟨next, opened⟩ :=
      ordered.enter sourced ready kind low later.bound spans front within.bound named
    obtain ⟨filled, after⟩ := ih next opened
    have larger := Extends.grow (t.enter host kind range name) t.hosts.size inside
    -- The items of the outer host are those it had and the host that has been filled.
    have added : ((t.enter host kind range name).grow t.hosts.size inside).itemsIn host =
        t.itemsIn host ++ [.host t.hosts.size] := by
      have outer := (Extends.enter t host kind range name).shells host
      obtain ⟨h, found, -⟩ := ready.around
      rw [grow_itemsIn _ _ _ _ opened.inside (Nat.ne_of_lt known)
        (lt_of_shell _ _ (outer h found)), itemsIn_enter _ _ _ _ _ _ known, if_pos rfl]
    apply behind filled
    exact ready.extend ((Extends.enter t host kind range name).trans larger) low spans added
      (larger.ranges _ _ (rangeOf?_enter t host kind range name)) after.references

end Ordered

theorem searchReference_sound (t : ScopeTree) (index low high id : Nat)
    (found : t.searchReference index low high = some id) :
    ∃ r, t.references[id]? = some r ∧ r.index = index := by
  fun_induction searchReference t index low high with
  | case1 low high filled middle missing => cases found
  | case2 low high filled middle r here same =>
    obtain rfl := Option.some.inj found
    exact ⟨r, here, same⟩
  | case3 low high filled middle r here other below ih => exact ih found
  | case4 low high filled middle r here other above ih => exact ih found
  | case5 low high empty => cases found

namespace Ordered

variable {t : ScopeTree}

theorem index_lt_iff (ordered : t.Ordered) {i j : Nat} {a b : Reference}
    (first : t.references[i]? = some a) (second : t.references[j]? = some b) :
    a.index < b.index ↔ i < j := by
  have increasing {i j : Nat} {a b : Reference} (first : t.references[i]? = some a)
      (second : t.references[j]? = some b) (earlier : i < j) : a.index < b.index := by
    obtain ⟨low, rfl⟩ := Array.getElem?_eq_some_iff.mp first
    obtain ⟨high, rfl⟩ := Array.getElem?_eq_some_iff.mp second
    exact List.pairwise_iff_getElem.mp ordered.sorted i j low high earlier
  constructor
  · intro below
    rcases Nat.lt_trichotomy i j with earlier | rfl | later
    · exact earlier
    · obtain rfl := Option.some.inj (first.symm.trans second)
      exact absurd below (Nat.lt_irrefl _)
    · exact absurd (increasing second first later) (Nat.lt_asymm below)
  · exact increasing first second

private theorem searchReference_complete (ordered : t.Ordered) {id : Nat} {r : Reference}
    (found : t.references[id]? = some r) (low high : Nat) (above : low ≤ id) (below : id < high)
    (inside : high ≤ t.references.size) : t.searchReference r.index low high = some id := by
  fun_induction searchReference t r.index low high with
  | case1 low high filled middle missing =>
    have beyond := Array.getElem?_eq_none_iff.mp missing
    omega
  | case2 low high filled middle m here same =>
    have before := ordered.index_lt_iff here found
    have behind := ordered.index_lt_iff found here
    exact congrArg some (by omega)
  | case3 low high filled middle m here other smaller ih =>
    have before := (ordered.index_lt_iff here found).mp smaller
    exact ih before below inside
  | case4 low high filled middle m here other larger ih =>
    have behind := (ordered.index_lt_iff found here).mp (by omega)
    exact ih above behind (by omega)
  | case5 low high empty => omega

theorem referenceAt?_eq_some_iff (ordered : t.Ordered) (index id : Nat) :
    t.referenceAt? index = some id ↔ ∃ r, t.references[id]? = some r ∧ r.index = index := by
  constructor
  · exact t.searchReference_sound index 0 _ id
  · rintro ⟨r, found, rfl⟩
    have bound := (Array.getElem?_eq_some_iff.mp found).1
    exact ordered.searchReference_complete found 0 _ (Nat.zero_le id) bound (Nat.le_refl _)

end Ordered

private theorem bare_itemsIn (file : String) (range : Range) (q : Nat) :
    (bare file range).itemsIn q = [] := by
  cases q <;> rfl

private theorem bare_linked (file : String) (range : Range) : (bare file range).Linked where
  document := ⟨_, rfl, rfl, rfl⟩
  inner _ _ found := nomatch found
  hosts q id := by
    rw [bare_itemsIn]
    cases id <;> rfl
  references q id := by
    rw [bare_itemsIn]
    rfl
  named q id := by
    cases q <;> exact ⟨nofun, nofun⟩
  kinds q h found given := by
    cases q with
    | zero =>
      obtain rfl := Option.some.inj found
      cases given
    | succ q => cases found
  owners _ _ found := nomatch found

private theorem bare_ordered (file : String) (range : Range) : (bare file range).Ordered where
  sorted := .nil
  items q := by
    rw [bare_itemsIn]
    exact .nil
  references _ member := nomatch member
  hosts q h p found parent := by
    cases q with
    | zero =>
      obtain rfl := Option.some.inj found
      cases parent
    | succ q => cases found

private theorem bare_ready {d : Document} (sourced : d.Sourced) (file : String) :
    Ready d.atoms (bare file d.view.range) 0 0 d.atoms.size where
  around := by
    refine ⟨_, rfl, ?_⟩
    intro left right range low high spans
    have whole : d.view.form.span = ⟨0, d.atoms.size⟩ := sourced.whole
    have filled := spans.1
    have all := d.view.range_spans (by rw [whole]; exact Nat.zero_lt_of_lt (filled.trans_le high))
      (by rw [whole]; exact Nat.le_refl _)
    rw [whole] at all
    exact sourced.within spans all low high
  items item member := by
    rw [bare_itemsIn] at member
    cases member
  references _ member := nomatch member

private theorem shell?_of_host {t : ScopeTree} {q : Nat} {h : Host} (here : t.hosts[q]? = some h) :
    t.shell? q = some h.shell :=
  (t.shell?_eq_some_iff q).mpr ⟨h, here, rfl⟩

namespace Linked

variable {t : ScopeTree}

theorem named_iff (linked : t.Linked) {q : Nat} {h : Host} (here : t.hosts[q]? = some h)
    (id : Nat) : h.named = some id ↔ t.ownerAs true id = some q := by
  rw [← linked.named, shell?_of_host here]
  rfl

private theorem item_exists (linked : t.Linked) {q : Nat} {item : ScopeItem}
    (member : item ∈ t.itemsIn q) :
    ∃ range, t.rangeOf? item = some range := by
  have held := List.count_pos_iff.mpr member
  cases item with
  | reference id =>
    rw [linked.references] at held
    split at held
    · rename_i owned
      obtain ⟨r, here, -⟩ := found_of_ownerAs owned
      exact ⟨r.range, by rw [rangeOf?, here]; rfl⟩
    · cases held
  | host id =>
    rw [linked.hosts] at held
    split at held
    · rename_i owned
      obtain ⟨s, found, -⟩ := Option.bind_eq_some_iff.mp owned
      obtain ⟨h, here, -⟩ := (t.shell?_eq_some_iff id).mp found
      exact ⟨h.range, by rw [rangeOf?, here]; rfl⟩
    · cases held

/-- A reference hangs at its owner, in one of two ways. -/
theorem reference_hangs (linked : t.Linked) {id : Nat} {r : Reference} {owner : Host}
    (here : t.references[id]? = some r) (there : t.hosts[r.owner]? = some owner) :
    r.isDefinition = false ∧
        (∀ q, (t.itemsIn q).count (.reference id) = if q = r.owner then 1 else 0) ∧
        (∀ (q : Nat) (h : Host), t.hosts[q]? = some h → h.named ≠ some id) ∨
      r.isDefinition = true ∧ (owner.kind = .defun ∨ owner.kind = .defunQ) ∧
        (∀ q, (t.itemsIn q).count (.reference id) = 0) ∧
        ∀ (q : Nat) (h : Host), t.hosts[q]? = some h → (h.named = some id ↔ q = r.owner) := by
  have roles := ownerAs_of_found here
  cases role : r.isDefinition with
  | false =>
    rw [role] at roles
    refine .inl ⟨rfl, ?_, ?_⟩
    · intro q
      rw [linked.references, roles, if_pos rfl]
      simp only [Option.some.injEq, eq_comm]
    · intro q h known named
      have owned := (linked.named_iff known id).mp named
      rw [roles, if_neg Bool.false_ne_true] at owned
      cases owned
  | true =>
    rw [role] at roles
    have naming (q : Nat) (h : Host) (known : t.hosts[q]? = some h) :
        h.named = some id ↔ q = r.owner := by
      rw [linked.named_iff known, roles, if_pos rfl, Option.some.injEq, eq_comm]
    refine .inr ⟨rfl, ?_, ?_, naming⟩
    · have named := (naming r.owner owner there).mpr rfl
      apply HostKind.isNamed_iff.mp
      exact linked.kinds r.owner owner.shell (shell?_of_host there) (Option.isSome_of_eq_some named)
    · intro q
      rw [linked.references, roles, if_neg (Ne.symm Bool.false_ne_true)]
      rfl

theorem arranged (linked : t.Linked) (ordered : t.Ordered) : t.Arranged := by
  constructor
  · obtain ⟨h, found, kind, parent⟩ := linked.document
    obtain ⟨g, here, rfl⟩ := (t.shell?_eq_some_iff 0).mp found
    exact ⟨g, here, kind, parent⟩
  · intro q
    obtain ⟨h, found, -, parent⟩ := linked.document
    rw [linked.hosts, found, Option.bind_some, parent]
    rfl
  · intro id h here
    have found := shell?_of_host here
    obtain ⟨kind, p, low, parent⟩ := linked.inner id h.shell found
    obtain ⟨s, outer, within⟩ := ordered.hosts (id + 1) h.shell p found parent
    obtain ⟨owner, there, rfl⟩ := (t.shell?_eq_some_iff p).mp outer
    refine ⟨kind, p, low, owner, parent, there, within, ?_⟩
    intro q
    rw [linked.hosts, found, Option.bind_some, parent]
    simp only [Option.some.injEq, eq_comm]
  · intro id r here
    have member := Array.mem_toList_iff.mpr (Array.mem_of_getElem? here)
    obtain ⟨s, outer, within⟩ := ordered.references r member
    obtain ⟨owner, there, rfl⟩ := (t.shell?_eq_some_iff r.owner).mp outer
    exact ⟨owner, there, within, linked.reference_hangs here there⟩
  · intro q item member
    exact linked.item_exists member
  · intro q h id here named
    obtain ⟨r, found, -⟩ := found_of_ownerAs ((linked.named_iff here id).mp named)
    exact (Array.getElem?_eq_some_iff.mp found).1
  · exact ordered.sorted
  · exact ordered.items
  · exact ordered.referenceAt?_eq_some_iff

end Linked

end ScopeTree

theorem Document.Sourced.arranged {d : Document} (sourced : d.Sourced) (native : String → Bool)
    (file : String) : (ScopeTree.build native file d).Arranged := by
  have lies := Outline.ofNodes_lies native d.root.items sourced.covers sourced.forms
  have linked := (ScopeTree.bare_linked file d.view.range).grow lies Nat.zero_lt_one
  have ordered := (ScopeTree.bare_ordered file d.view.range).grow sourced lies
    (ScopeTree.bare_ready sourced file)
  rw [ScopeTree.build_eq_grow]
  exact linked.arranged ordered.1

/-- The scopes of every document are arranged, with its exported names marked or not. -/
theorem build_arranged (native names : String → Bool) (file text : String) :
    (ScopeTree.build native file (Document.build names text)).Arranged ∧
      (ScopeTree.build native file (Document.parse names text)).Arranged := by
  constructor
  · exact (build_sourced names text).arranged native file
  · exact (parse_sourced names text).arranged native file

end LispIndex
