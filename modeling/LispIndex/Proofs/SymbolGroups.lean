import LispIndex.Proofs.Gathering
import LispIndex.Proofs.ScopeArena

/-!
The references under a host, grouped by name. They are the references owned by the host or by a host
inside it, each listed once, less the name of the host itself; groups and references stand in the
order of the source.
-/

namespace LispIndex

namespace ScopeTree

inductive Inside (t : ScopeTree) (host : Nat) : Nat → Prop
  | self : Inside t host host
  | child {q p : Nat} {h : Host} (found : t.hosts[q]? = some h) (parent : h.parent = some p)
      (outer : Inside t host p) : Inside t host q

def nameIn (t : ScopeTree) (host : Nat) : Option Nat :=
  t.hosts[host]?.bind Host.named

def Before (t : ScopeTree) (left right : Nat) : Prop :=
  ∃ r s, t.references[left]? = some r ∧ t.references[right]? = some s ∧ r.index < s.index

structure Groups (t : ScopeTree) (host : Nat) (groups : Gathered) : Prop where
  listed : ∀ id r, t.references[id]? = some r →
    ((∃ group ∈ groups, id ∈ group.2) ↔ t.Inside host r.owner ∧ t.nameIn host ≠ some id)
  keyed : ∀ group ∈ groups, ∀ id ∈ group.2, ∃ r, t.references[id]? = some r ∧ r.name = group.1
  distinct : (groups.map Prod.fst).Nodup
  once : (groups.flatMap Prod.snd).Nodup
  filled : ∀ group ∈ groups, group.2 ≠ []
  sorted : ∀ group ∈ groups, group.2.Pairwise t.Before
  ordered : groups.Pairwise fun left right =>
    ∀ i ∈ left.2.head?, ∀ j ∈ right.2.head?, t.Before i j

namespace Inside

variable {t : ScopeTree} {host q p : Nat} {h : Host}

private theorem outer (inside : t.Inside p q) (found : t.hosts[p]? = some h)
    (parent : h.parent = some host) : t.Inside host q := by
  induction inside with
  | self => exact .child found parent .self
  | child here above _ ih => exact .child here above ih

private theorem cases_first (inside : t.Inside host q) :
    q = host ∨ ∃ (p : Nat) (h : Host), t.hosts[p]? = some h ∧ h.parent = some host ∧
      t.Inside p q := by
  induction inside with
  | self => exact .inl rfl
  | @child q p h found parent outer ih =>
    rcases ih with rfl | ⟨first, k, there, below, further⟩
    · exact .inr ⟨q, h, found, parent, .self⟩
    · exact .inr ⟨first, k, there, below, .child found parent further⟩

end Inside

namespace Arranged

variable {t : ScopeTree} {host q id : Nat} {h : Host} {r : Reference}

private theorem parent_lt (arranged : t.Arranged) (found : t.hosts[q]? = some h)
    (parent : h.parent = some host) : host < q := by
  cases q with
  | zero =>
    obtain ⟨root, here, -, none⟩ := arranged.document
    obtain rfl := Option.some.inj (here.symm.trans found)
    rw [none] at parent
    cases parent
  | succ id =>
    obtain ⟨-, p, low, -, above, -⟩ := arranged.inner id h found
    obtain rfl := Option.some.inj (above.symm.trans parent)
    exact Nat.lt_succ_of_le low

private theorem le_of_inside (arranged : t.Arranged) (inside : t.Inside host q) : host ≤ q := by
  induction inside with
  | self => exact Nat.le_refl host
  | child found parent outer ih => exact ih.trans (arranged.parent_lt found parent).le

theorem host_item_iff (arranged : t.Arranged) :
    .host q ∈ t.itemsIn host ↔ ∃ h, t.hosts[q]? = some h ∧ h.parent = some host := by
  cases q with
  | zero =>
    refine iff_of_false ?_ ?_
    · rw [← List.count_pos_iff, arranged.outermost host]
      exact Nat.lt_irrefl 0
    · rintro ⟨h, found, parent⟩
      exact absurd (arranged.parent_lt found parent) (Nat.not_lt_zero host)
  | succ id =>
    constructor
    · intro member
      obtain ⟨range, known⟩ := arranged.existing host _ member
      obtain ⟨h, found, -⟩ := Option.map_eq_some_iff.mp known
      obtain ⟨-, p, -, -, parent, -, -, count⟩ := arranged.inner id h found
      have held := List.count_pos_iff.mpr member
      rw [count] at held
      split at held
      next same => exact ⟨h, found, same ▸ parent⟩
      next => cases held
    · rintro ⟨h, found, parent⟩
      obtain ⟨-, p, -, -, above, -, -, count⟩ := arranged.inner id h found
      obtain rfl := Option.some.inj (above.symm.trans parent)
      rw [← List.count_pos_iff, count, if_pos rfl]
      exact Nat.zero_lt_one

/-- A reference is an item of its owner or the name of it. -/
theorem reference_item_iff (arranged : t.Arranged) (here : t.references[id]? = some r) :
    .reference id ∈ t.itemsIn q ↔ q = r.owner ∧ r.isDefinition = false := by
  obtain ⟨owner, -, -, ⟨plain, count, -⟩ | ⟨definition, -, none, -⟩⟩ := arranged.reference id r here
  · rw [← List.count_pos_iff, count, plain]
    split <;> simp [*]
  · rw [← List.count_pos_iff, none, definition]
    simp

theorem nameIn_iff (arranged : t.Arranged) (here : t.references[id]? = some r) :
    t.nameIn q = some id ↔ q = r.owner ∧ r.isDefinition = true := by
  rw [nameIn, Option.bind_eq_some_iff]
  obtain ⟨owner, there, -, ⟨plain, -, unnamed⟩ | ⟨definition, -, -, naming⟩⟩ :=
    arranged.reference id r here
  · rw [plain]
    refine iff_of_false ?_ (fun both => Bool.false_ne_true both.2)
    rintro ⟨h, found, named⟩
    exact unnamed q h found named
  · constructor
    · rintro ⟨h, found, named⟩
      exact ⟨(naming q h found).mp named, definition⟩
    · rintro ⟨rfl, -⟩
      exact ⟨owner, there, (naming r.owner owner there).mpr rfl⟩

theorem mem_underItem (arranged : t.Arranged) (here : t.references[id]? = some r)
    (deeper : host < q → (id ∈ t.under q ↔ t.Inside q r.owner ∧ t.nameIn q ≠ some id))
    (found : t.hosts[q]? = some h) (parent : h.parent = some host) :
    id ∈ t.underItem host (.host q) ↔ t.Inside q r.owner := by
  have above := arranged.parent_lt found parent
  have known := (Array.getElem?_eq_some_iff.mp found).1
  rw [underItem, if_pos ⟨above, known⟩, List.mem_append, Option.mem_toList, deeper above]
  by_cases named : t.nameIn q = some id
  · have owner := ((arranged.nameIn_iff here).mp named).1
    exact iff_of_true (.inl named) (owner ▸ .self)
  · rw [and_iff_left named]
    exact or_iff_right named

/-- Gathered under a host is what it or a host inside it owns, less its own name. -/
theorem mem_under {t : ScopeTree} {id : Nat} {r : Reference} (arranged : t.Arranged)
    (here : t.references[id]? = some r) (host : Nat) :
    id ∈ t.under host ↔ t.Inside host r.owner ∧ t.nameIn host ≠ some id := by
  cases found : t.hosts[host]? with
  | none =>
    rw [under, found]
    refine iff_of_false List.not_mem_nil ?_
    rintro ⟨inside, -⟩
    obtain ⟨owner, known, -⟩ := arranged.reference id r here
    have beyond := Array.getElem?_eq_none_iff.mp found
    have bound := (Array.getElem?_eq_some_iff.mp known).1
    have low := arranged.le_of_inside inside
    omega
  | some h =>
    have bound := (Array.getElem?_eq_some_iff.mp found).1
    have items : t.itemsIn host = h.items.toList := by
      rw [itemsIn, found]
      rfl
    have deeper (q : Nat) (k : Host) (there : t.hosts[q]? = some k)
        (parent : k.parent = some host) :=
      arranged.mem_underItem here (fun above => arranged.mem_under here q) there parent
    rw [under_eq found, ← items, List.mem_flatMap]
    constructor
    · rintro ⟨item, member, listed⟩
      cases item with
      | reference other =>
        obtain rfl := List.mem_singleton.mp listed
        obtain ⟨rfl, plain⟩ := (arranged.reference_item_iff here).mp member
        refine ⟨.self, ?_⟩
        rw [ne_eq, arranged.nameIn_iff here, plain]
        exact fun both => Bool.false_ne_true both.2
      | host q =>
        obtain ⟨k, there, parent⟩ := arranged.host_item_iff.mp member
        have inside := (deeper q k there parent).mp listed
        refine ⟨inside.outer there parent, ?_⟩
        intro named
        have owner := ((arranged.nameIn_iff here).mp named).1
        have above := arranged.parent_lt there parent
        have low := arranged.le_of_inside inside
        omega
    · rintro ⟨inside, unnamed⟩
      rcases inside.cases_first with same | ⟨q, k, there, parent, further⟩
      · rw [ne_eq, arranged.nameIn_iff here, ← same, and_iff_right rfl, Bool.not_eq_true] at unnamed
        have member := (arranged.reference_item_iff here).mpr ⟨same.symm, unnamed⟩
        exact ⟨.reference id, member, List.mem_singleton_self id⟩
      · have member := arranged.host_item_iff.mpr ⟨k, there, parent⟩
        exact ⟨.host q, member, (deeper q k there parent).mpr further⟩
termination_by t.hosts.size - host

private theorem inside_document (arranged : t.Arranged) (bound : q < t.hosts.size) :
    t.Inside 0 q := by
  induction q using Nat.strongRecOn with
  | ind q ih =>
    have found := Array.getElem?_eq_getElem bound
    cases q with
    | zero => exact .self
    | succ id =>
      obtain ⟨-, p, low, owner, parent, there, -⟩ := arranged.inner id _ found
      have outer := (Array.getElem?_eq_some_iff.mp there).1
      exact .child found parent (ih p (Nat.lt_succ_of_le low) outer)

end Arranged

/-- Every host of an outline holds the references of a stretch of the arena. -/
theorem Stores.reach {t : ScopeTree} {parent q : Nat} {n : Numbering} {entries : List ScopeEntry}
    (stores : t.Stores parent n entries) (low : n.host ≤ q) (high : q < (n.behind entries).host) :
    ∃ start count, t.under q = List.range' start count := by
  fun_induction n.behind entries generalizing parent with
  | case1 n => omega
  | case2 n bound a rest ih => exact ih stores.noted low high
  | case3 n kind range name inside rest within later =>
    by_cases here : q = n.host
    · subst here
      refine ⟨(n.opened name).reference, (Outline.mentions inside).length, ?_⟩
      rw [under_eq stores.first]
      exact under_items stores.inner (Nat.lt_succ_self _)
    · by_cases deeper : q < ((n.opened name).behind inside).host
      · refine within stores.inner ?_ deeper
        rw [Numbering.opened_host]
        omega
      · exact later stores.later (by omega) high

private theorem ofOutline_under (file : String) (range : Range) (entries : List ScopeEntry)
    (host : Nat) :
    ∃ start count, (ofOutline file range entries).under host = List.range' start count := by
  have stores := ofOutline_stores file range entries
  have size :
      (ofOutline file range entries).hosts.size = (Numbering.start.behind entries).host := by
    rw [Numbering.behind_host 0, ofOutline, List.size_toArray, List.length_cons, Nat.add_comm]
    rfl
  rcases Nat.lt_or_ge host (ofOutline file range entries).hosts.size with bound | beyond
  · cases host with
    | zero =>
      refine ⟨0, (Outline.mentions entries).length, ?_⟩
      rw [under_eq (by rw [ofOutline]; rfl)]
      exact under_items stores Nat.zero_lt_one
    | succ id => exact stores.reach (Nat.succ_le_succ (Nat.zero_le id)) (size ▸ bound)
  · refine ⟨0, 0, ?_⟩
    rw [under, Array.getElem?_eq_none beyond]
    rfl

namespace Gathered

variable {found : Gathered}

def heads (found : Gathered) : List Nat :=
  found.filterMap fun entry => entry.2.head?

private theorem filled_add (filled : ∀ entry ∈ found, entry.2 ≠ []) (name : String) (id : Nat) :
    ∀ entry ∈ found.add name id, entry.2 ≠ [] := by
  induction found with
  | nil => simp [add]
  | cons entry rest ih =>
    obtain ⟨here, later⟩ := List.forall_mem_cons.mp filled
    rw [add]
    split
    next => exact List.forall_mem_cons.mpr ⟨by simp, later⟩
    next => exact List.forall_mem_cons.mpr ⟨here, ih later⟩

private theorem heads_add (filled : ∀ entry ∈ found, entry.2 ≠ []) (name : String) (id : Nat) :
    (found.add name id).heads =
      if name ∈ found.map Prod.fst then found.heads else found.heads ++ [id] := by
  induction found with
  | nil => rfl
  | cons entry rest ih =>
    obtain ⟨other, ids⟩ := entry
    obtain ⟨here, later⟩ := List.forall_mem_cons.mp filled
    obtain ⟨first, more, rfl⟩ := List.exists_cons_of_ne_nil here
    rw [add]
    by_cases same : other = name
    · simp [same, heads]
    · have next := ih later
      rw [heads, heads] at next
      simp only [if_neg same, heads, List.filterMap_cons, List.head?_cons, next, List.map_cons,
        List.mem_cons, Ne.symm same, false_or]
      split <;> rfl

end Gathered

private theorem gather_heads (t : ScopeTree) (ids : List Nat) (found : Gathered)
    (filled : ∀ entry ∈ found, entry.2 ≠ []) :
    ∃ fresh : List Nat, fresh.Sublist ids ∧
      Gathered.heads (ids.foldl t.gather found) = found.heads ++ fresh := by
  induction ids generalizing found with
  | nil => exact ⟨[], .slnil, (List.append_nil _).symm⟩
  | cons id rest ih =>
    rw [List.foldl_cons, gather]
    cases t.references[id]? with
    | none =>
      obtain ⟨fresh, part, heads⟩ := ih found filled
      exact ⟨fresh, part.cons id, heads⟩
    | some r =>
      obtain ⟨fresh, part, heads⟩ := ih _ (Gathered.filled_add filled r.name id)
      rw [Gathered.heads_add filled] at heads
      split at heads
      next => exact ⟨fresh, part.cons id, heads⟩
      next =>
        refine ⟨id :: fresh, part.cons_cons id, ?_⟩
        rw [heads, List.append_assoc]
        rfl

private theorem symbolsUnder_distinct (t : ScopeTree) (host : Nat) :
    ((t.symbolsUnder host).map Prod.fst).Nodup := by
  rw [symbolsUnder, gatherFrom_under]
  exact gather_nodup t _ List.nodup_nil

theorem mem_symbolsUnder {t : ScopeTree} {host : Nat} {group : String × List Nat} :
    group ∈ t.symbolsUnder host ↔
      group.2 ≠ [] ∧ group.2 = (t.under host).filter (t.isNamed group.1) := by
  have found := mem_iff_lookup (t.symbolsUnder_distinct host) group.1 group.2
  refine found.trans ?_
  rw [symbolsUnder, gatherFrom_under, gather_lookup]
  split
  next none =>
    rw [none]
    exact iff_of_false (Option.some_ne_none _).symm fun both => both.1 both.2
  next filled =>
    rw [Option.some.injEq, List.lookup_nil, Option.getD_none, List.nil_append, eq_comm]
    exact (and_iff_right_of_imp fun same => same ▸ filled).symm

namespace Arranged

variable {t : ScopeTree} {host : Nat}

theorem before (arranged : t.Arranged) {i j : Nat} {r s : Reference}
    (first : t.references[i]? = some r) (second : t.references[j]? = some s) (order : i < j) :
    t.Before i j := by
  refine ⟨r, s, first, second, ?_⟩
  rw [← Array.getElem?_toList] at first second
  obtain ⟨low, rfl⟩ := List.getElem?_eq_some_iff.mp first
  obtain ⟨high, rfl⟩ := List.getElem?_eq_some_iff.mp second
  exact List.pairwise_iff_getElem.mp arranged.sorted i j low high order

theorem groups (arranged : t.Arranged) (ascending : (t.under host).Pairwise (· < ·)) :
    t.Groups host (t.symbolsUnder host) := by
  have keyed (group : String × List Nat) (member : group ∈ t.symbolsUnder host) (id : Nat)
      (inside : id ∈ group.2) : ∃ r, t.references[id]? = some r ∧ r.name = group.1 := by
    rw [(mem_symbolsUnder.mp member).2, List.mem_filter] at inside
    simpa using (Option.any_eq_true _ _).mp inside.2
  have order (group : String × List Nat) (member : group ∈ t.symbolsUnder host) :
      group.2.Pairwise (· < ·) := by
    rw [(mem_symbolsUnder.mp member).2]
    exact ascending.filter _
  constructor
  · intro id r here
    rw [← arranged.mem_under here host]
    constructor
    · rintro ⟨group, member, inside⟩
      rw [(mem_symbolsUnder.mp member).2] at inside
      exact List.mem_of_mem_filter inside
    · intro member
      have named : t.isNamed r.name id = true := by simp [isNamed, here]
      have inside := List.mem_filter.mpr ⟨member, named⟩
      exact ⟨(r.name, _), mem_symbolsUnder.mpr ⟨List.ne_nil_of_mem inside, rfl⟩, inside⟩
  · exact keyed
  · exact t.symbolsUnder_distinct host
  · refine List.nodup_flatMap.mpr ⟨fun group member => (order group member).imp Nat.ne_of_lt, ?_⟩
    refine (List.pairwise_map.mp (t.symbolsUnder_distinct host)).imp_of_mem ?_
    intro left right first second apart id low high
    obtain ⟨r, here, name⟩ := keyed left first id low
    obtain ⟨s, there, other⟩ := keyed right second id high
    obtain rfl := Option.some.inj (here.symm.trans there)
    exact apart (name.symm.trans other)
  · exact fun group member => (mem_symbolsUnder.mp member).1
  · intro group member
    refine (order group member).imp_of_mem ?_
    intro i j left right before
    obtain ⟨r, first, -⟩ := keyed group member i left
    obtain ⟨s, second, -⟩ := keyed group member j right
    exact arranged.before first second before
  · obtain ⟨fresh, part, heads⟩ := t.gather_heads (t.under host) [] (List.forall_mem_nil _)
    have firsts : (Gathered.heads (t.symbolsUnder host)).Pairwise (· < ·) := by
      rw [symbolsUnder, gatherFrom_under, heads]
      exact ascending.sublist part
    refine (List.pairwise_filterMap.mp firsts).imp_of_mem ?_
    intro left right first second before i low j high
    obtain ⟨r, here, -⟩ := keyed left first i (List.mem_of_mem_head? low)
    obtain ⟨s, there, -⟩ := keyed right second j (List.mem_of_mem_head? high)
    exact arranged.before here there (before i low j high)

private theorem unnamed_document (arranged : t.Arranged) {id : Nat} {r : Reference}
    (here : t.references[id]? = some r) : t.nameIn 0 ≠ some id := by
  rw [ne_eq, arranged.nameIn_iff here]
  rintro ⟨document, definition⟩
  obtain ⟨root, found, kind, -⟩ := arranged.document
  obtain ⟨owner, there, -, ⟨plain, -⟩ | ⟨-, kinds, -⟩⟩ := arranged.reference id r here
  · rw [plain] at definition
    cases definition
  · rw [← document] at there
    obtain rfl := Option.some.inj (found.symm.trans there)
    rw [kind] at kinds
    rcases kinds with defun | defunQ
    · cases defun
    · cases defunQ

end Arranged

structure Gathers (t : ScopeTree) : Prop where
  groups : ∀ host, t.Groups host (t.symbolsUnder host)
  document : ∀ id < t.references.size, ∃ group ∈ t.symbolsUnder 0, id ∈ group.2

private theorem build_under (native : String → Bool) (file : String) (d : Document) (host : Nat) :
    ((build native file d).under host).Pairwise (· < ·) := by
  obtain ⟨start, count, listed⟩ := ofOutline_under file d.view.range
    (Outline.ofNodes native d.atoms d.root.items) host
  rw [build_eq_ofOutline, listed]
  exact List.pairwise_lt_range' _

end ScopeTree

theorem Document.Sourced.gathers {d : Document} (sourced : d.Sourced) (native : String → Bool)
    (file : String) : (ScopeTree.build native file d).Gathers := by
  have arranged := sourced.arranged native file
  have groups (host : Nat) := arranged.groups (ScopeTree.build_under native file d host)
  refine ⟨groups, ?_⟩
  intro id bound
  have here := Array.getElem?_eq_getElem bound
  obtain ⟨owner, there, -⟩ := arranged.reference id _ here
  have inside := arranged.inside_document (Array.getElem?_eq_some_iff.mp there).1
  exact ((groups 0).listed id _ here).mpr ⟨inside, arranged.unnamed_document here⟩

/-- In every document, with its exported names marked or not, the references under a host are
grouped by name. -/
theorem build_gathers (native names : String → Bool) (file text : String) :
    (ScopeTree.build native file (Document.build names text)).Gathers ∧
      (ScopeTree.build native file (Document.parse names text)).Gathers := by
  constructor
  · exact (build_sourced names text).gathers native file
  · exact (parse_sourced names text).gathers native file

end LispIndex
