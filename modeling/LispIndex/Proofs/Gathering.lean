import LispIndex.Proofs.KeyedList
import LispIndex.Proofs.OutlineOrigins
import LispIndex.Scope.Resolve

/-!
Gathering references by name. Going through the items of a host, and through those of the hosts
among them, visits the references inside it in their order, so that those of a name are listed in
it.
-/

namespace LispIndex

namespace ScopeTree

namespace Gathered

private theorem lookup_add (found : Gathered) (name key : String) (id : Nat) :
    (found.add name id).lookup key =
      if key = name then some ((found.lookup key).getD [] ++ [id]) else found.lookup key := by
  induction found with
  | nil =>
    rw [add, lookup_cons_eq]
    rfl
  | cons entry rest ih =>
    rw [add]
    by_cases here : entry.1 = name
    · rw [if_pos here, lookup_cons_eq, lookup_cons_eq]
      by_cases same : key = name <;> simp [here, same]
    · rw [if_neg here, lookup_cons_eq, lookup_cons_eq, ih]
      by_cases first : key = entry.1 <;> simp [here, first]

private theorem keys_add (found : Gathered) (name : String) (id : Nat) :
    (found.add name id).map Prod.fst =
      if name ∈ found.map Prod.fst then found.map Prod.fst else found.map Prod.fst ++ [name] := by
  induction found with
  | nil => rfl
  | cons entry rest ih =>
    obtain ⟨other, ids⟩ := entry
    rw [add]
    by_cases here : other = name
    · simp [here]
    · rw [if_neg here, List.map_cons, ih]
      by_cases later : name ∈ rest.map Prod.fst
      · simp [later]
      · simp [later, Ne.symm here]

private theorem nodup_add {found : Gathered} (distinct : (found.map Prod.fst).Nodup) (name : String)
    (id : Nat) : ((found.add name id).map Prod.fst).Nodup := by
  rw [keys_add]
  split
  next => exact distinct
  next fresh => simpa using distinct.concat fresh

end Gathered

def under (t : ScopeTree) (host : Nat) : List Nat :=
  match t.hosts[host]? with
  | none => []
  | some h => h.items.toList.flatMap fun item =>
    match item with
    | .reference id => [id]
    | .host child =>
      if host < child ∧ child < t.hosts.size then
        (t.hosts[child]?.bind Host.named).toList ++ t.under child
      else []
termination_by t.hosts.size - host

theorem gatherFrom_under (t : ScopeTree) (found : Gathered) (host : Nat) :
    t.gatherFrom found host = (t.under host).foldl t.gather found := by
  rw [gatherFrom, under]
  cases t.hosts[host]? with
  | none => rfl
  | some h =>
    dsimp only
    rw [List.foldl_flatMap, ← Array.foldl_toList]
    apply List.foldl_ext
    intro found item member
    cases item with
    | reference id => rfl
    | host child =>
      dsimp only
      split
      next inside =>
        rw [gatherFrom_under t _ child, List.foldl_append]
        cases t.hosts[child]?.bind Host.named <;> rfl
      next => rfl
termination_by t.hosts.size - host

def underItem (t : ScopeTree) (host : Nat) : ScopeItem → List Nat
  | .reference id => [id]
  | .host child =>
    if host < child ∧ child < t.hosts.size then
      (t.hosts[child]?.bind Host.named).toList ++ t.under child
    else []

theorem under_eq {t : ScopeTree} {host : Nat} {h : Host} (here : t.hosts[host]? = some h) :
    t.under host = h.items.toList.flatMap (t.underItem host) := by
  rw [under, here]
  rfl

def Stores (t : ScopeTree) (parent : Nat) (n : Numbering) (entries : List ScopeEntry) : Prop :=
  ∀ (i : Nat) (h : Host), (Outline.hostsOf parent n entries)[i]? = some h →
    t.hosts[n.host + i]? = some h

namespace Stores

variable {t : ScopeTree} {parent : Nat} {n : Numbering} {kind : HostKind} {range : Range}
  {name : Option Atom} {inside rest : List ScopeEntry}

theorem first (stores : t.Stores parent n (.host kind range name inside :: rest)) :
    t.hosts[n.host]? = some ⟨kind, some parent, (Outline.itemsOf (n.opened name) inside).toArray,
      name.map fun _ => n.reference, range⟩ :=
  stores 0 _ (by rw [Outline.hostsOf]; rfl)

theorem noted {bound : Bool} {a : Atom} (stores : t.Stores parent n (.reference bound a :: rest)) :
    t.Stores parent n.noted rest := by
  unfold Stores at stores ⊢
  rwa [Outline.hostsOf] at stores

theorem inner (stores : t.Stores parent n (.host kind range name inside :: rest)) :
    t.Stores n.host (n.opened name) inside := by
  intro i h found
  have bound := (List.getElem?_eq_some_iff.mp found).1
  have place := stores (i + 1) h
  rw [Outline.hostsOf, List.getElem?_cons_succ, List.getElem?_append_left bound] at place
  rw [Numbering.opened_host, Nat.add_assoc, Nat.add_comm 1]
  exact place found

theorem later (stores : t.Stores parent n (.host kind range name inside :: rest)) :
    t.Stores parent ((n.opened name).behind inside) rest := by
  intro i h found
  have place := stores ((Outline.hostsOf n.host (n.opened name) inside).length + i + 1) h
  rw [Outline.hostsOf, List.getElem?_cons_succ,
    List.getElem?_append_right (Nat.le_add_right _ _), Nat.add_sub_cancel_left] at place
  rw [Numbering.behind_host n.host, Numbering.opened_host]
  have same : n.host + 1 + (Outline.hostsOf n.host (n.opened name) inside).length + i =
      n.host + ((Outline.hostsOf n.host (n.opened name) inside).length + i + 1) := by omega
  rw [same]
  exact place found

end Stores

/-- The references inside a host are visited in their order. -/
theorem under_items {t : ScopeTree} {host : Nat} {n : Numbering} {entries : List ScopeEntry}
    (stores : t.Stores host n entries) (below : host < n.host) :
    (Outline.itemsOf n entries).flatMap (t.underItem host) =
      List.range' n.reference (Outline.mentions entries).length := by
  -- The items of a host do not show what is inside the hosts among them; the numbering does.
  fun_induction n.behind entries generalizing host with
  | case1 n => simp [Outline.itemsOf, Outline.mentions]
  | case2 n bound a rest ih =>
    rw [Outline.itemsOf, List.flatMap_cons, ih stores.noted below, Outline.mentions,
      List.length_cons, List.range'_succ]
    rfl
  | case3 n kind range name inside rest within later =>
    have stored := (Array.getElem?_eq_some_iff.mp stores.first).1
    have grown := (n.opened name).behind_host n.host inside
    have child : t.underItem host (.host n.host) =
        List.range' n.reference (name.toList.length + (Outline.mentions inside).length) := by
      rw [underItem, if_pos ⟨below, stored⟩, under_eq stores.first, stores.first,
        within stores.inner (Nat.lt_succ_self _), ← List.range'_append_1]
      cases name <;> rfl
    rw [Outline.itemsOf, List.flatMap_cons, child, later stores.later, Numbering.behind_reference,
      Outline.mentions, List.length_append, List.length_append, List.length_map,
      ← List.range'_append_1 (m := name.toList.length + _)]
    · rw [Numbering.opened_reference, Nat.add_assoc]
    · rw [grown, Numbering.opened_host]
      omega

variable (file : String) (range : Range) (entries : List ScopeEntry)

theorem ofOutline_stores : (ofOutline file range entries).Stores 0 .start entries := by
  intro i h found
  rw [ofOutline, List.getElem?_toArray, Numbering.start, Nat.add_comm, List.getElem?_cons_succ]
  exact found

theorem ofOutline_size :
    (ofOutline file range entries).references.size = (Outline.mentions entries).length := by
  have listed := Outline.referencesOf_map (fun _ => ()) (fun _ => ()) (fun _ _ => rfl) 0 .start
    entries
  simpa [ofOutline] using congrArg List.length listed

/-- Under the document stand all references. -/
theorem ofOutline_symbols : (ofOutline file range entries).symbolsUnder 0 =
    (List.range (ofOutline file range entries).references.size).foldl
      (ofOutline file range entries).gather [] := by
  rw [symbolsUnder, gatherFrom_under, under_eq (by rw [ofOutline]; rfl), ofOutline_size,
    List.range_eq_range']
  exact congrArg _ (under_items (ofOutline_stores file range entries) Nat.zero_lt_one)

def isNamed (t : ScopeTree) (key : String) (id : Nat) : Bool :=
  t.references[id]?.any (·.name == key)

theorem gather_lookup (t : ScopeTree) (ids : List Nat) (found : Gathered) (key : String) :
    (ids.foldl t.gather found).lookup key =
      if ids.filter (t.isNamed key) = [] then found.lookup key
      else some ((found.lookup key).getD [] ++ ids.filter (t.isNamed key)) := by
  induction ids generalizing found with
  | nil => simp
  | cons id rest ih =>
    rw [List.foldl_cons, ih, gather]
    cases here : t.references[id]? with
    | none => simp [isNamed, here]
    | some r =>
      dsimp only
      rw [Gathered.lookup_add]
      by_cases same : key = r.name
      · have named : t.isNamed key id = true := by simp [isNamed, here, same]
        rw [if_pos same, List.filter_cons_of_pos named]
        by_cases none : rest.filter (t.isNamed key) = []
        · simp [none]
        · simp [none]
      · have other : ¬ t.isNamed key id = true := by simp [isNamed, here, Ne.symm same]
        rw [if_neg same, List.filter_cons_of_neg other]

theorem gather_nodup (t : ScopeTree) (ids : List Nat) {found : Gathered}
    (distinct : (found.map Prod.fst).Nodup) :
    ((ids.foldl t.gather found).map Prod.fst).Nodup := by
  induction ids generalizing found with
  | nil => exact distinct
  | cons id rest ih =>
    apply ih
    rw [gather]
    split
    next => exact Gathered.nodup_add distinct _ _
    next => exact distinct

end ScopeTree

end LispIndex
