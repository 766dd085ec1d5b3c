import LispIndex.Proofs.LetterCase
import LispIndex.Proofs.OutlineOrigins
import LispIndex.Proofs.ScopeArena

/-!
Names are resolved lexically. The binder of a name is the first host on the way outwards that owns a
binding of it, and whatever a host binds lies in the form of that host, so that a local name has no
effect outside of its form.
-/

namespace LispIndex

def Document.Creates (d : Document) (f : Form) (h : Host) : Prop :=
  f ∈ d.root.nested ∧ (d.view.child f).range = h.range ∧
    ((d.view.child f).head?.bind fun head => HostKind.ofHead? head.symbol) = some h.kind

theorem Range.Within.trans {inner middle outer : Range} (first : inner.Within middle)
    (second : middle.Within outer) : inner.Within outer :=
  ⟨Position.le_trans second.1 first.1, Position.le_trans first.2 second.2⟩

namespace ScopeTree

/-- The hosts from `host` outwards, each the parent of the one before it, up to one without. -/
inductive Outward (t : ScopeTree) : Nat → List Nat → Prop
  | last {host : Nat} {h : Host} (found : t.hosts[host]? = some h) (outermost : h.parent = none) :
      Outward t host [host]
  | inner {host parent : Nat} {h : Host} {chain : List Nat} (found : t.hosts[host]? = some h)
      (inside : h.parent = some parent) (outer : Outward t parent chain) :
      Outward t host (host :: chain)

def localizes (t : ScopeTree) (name : String) (host : Nat) : Bool :=
  t.references.any fun r => r.isLocal && r.owner == host && r.name == name

structure Lexical (t : ScopeTree) (d : Document) : Prop where
  nearest : ∀ host key, host < t.hosts.size → ∃ chain, t.Outward host chain ∧
    t.binder host key = (chain.find? (t.localizes (Text.lower key))).getD 0
  document : ∀ name, t.localizes name 0 = false
  outside : ∀ host key, t.hosts.size ≤ host → t.binder host key = 0
  bound : ∀ r ∈ t.references, r.isLocal = true → t.binder r.owner r.name = r.owner
  created : ∀ host h, host ≠ 0 → t.hosts[host]? = some h → ∃! f, d.Creates f h
  captured : ∀ id r host, t.references[id]? = some r → t.referenceBinder? id = some host →
    host ≠ 0 → ∃ h f, t.hosts[host]? = some h ∧ d.Creates f h ∧ f.span.holds r.index = true

theorem localizes_iff {t : ScopeTree} {name : String} {host : Nat} :
    t.localizes name host = true ↔
      ∃ r ∈ t.references, r.isLocal = true ∧ r.owner = host ∧ r.name = name := by
  rw [localizes, Array.any_eq_true']
  simp only [Bool.and_eq_true, beq_iff_eq, and_assoc]

/-- An arena in which what a host binds is neither the name of a host nor owned by the document. -/
structure Bound (t : ScopeTree) : Prop where
  arranged : t.Arranged
  inner : ∀ r ∈ t.references, r.isLocal = true → r.isDefinition = false ∧ r.owner ≠ 0

namespace Bound

variable {t : ScopeTree}

theorem document (bound : t.Bound) (name : String) : t.localizes name 0 = false := by
  rw [Bool.eq_false_iff]
  intro localizes
  obtain ⟨r, member, isLocal, owner, -⟩ := localizes_iff.mp localizes
  exact (bound.inner r member isLocal).2 owner

/-- Looking through the items of a host finds the bindings that it owns. -/
theorem binds_eq (bound : t.Bound) {host : Nat} {h : Host} (found : t.hosts[host]? = some h)
    (name : String) : t.binds h name = t.localizes name host := by
  have items : t.itemsIn host = h.items.toList := by
    rw [itemsIn, found]
    rfl
  rw [Bool.eq_iff_iff, localizes_iff, binds, Array.any_eq_true']
  constructor
  · rintro ⟨item, member, test⟩
    cases item with
    | host id => cases test
    | reference id =>
      obtain ⟨r, here, passes⟩ := (Option.any_eq_true _ _).mp test
      simp only [Bool.and_eq_true, beq_iff_eq] at passes
      have held : 0 < (t.itemsIn host).count (.reference id) := by
        rw [items]
        exact List.count_pos_iff.mpr (Array.mem_toList_iff.mpr member)
      obtain ⟨owner, -, -, ⟨-, counts, -⟩ | ⟨-, -, none, -⟩⟩ := bound.arranged.reference id r here
      · rw [counts] at held
        refine ⟨r, Array.mem_of_getElem? here, passes.1, ?_, passes.2⟩
        split at held
        · rename_i same
          exact same.symm
        · cases held
      · rw [none] at held
        cases held
  · rintro ⟨r, member, isLocal, rfl, rfl⟩
    obtain ⟨id, here⟩ := Array.mem_iff_getElem?.mp member
    have plain := (bound.inner r member isLocal).1
    obtain ⟨owner, -, -, ⟨-, counts, -⟩ | ⟨definition, -⟩⟩ := bound.arranged.reference id r here
    · have held := counts r.owner
      rw [if_pos rfl, items] at held
      have listed := List.count_pos_iff.mp (held.ge)
      exact ⟨.reference id, Array.mem_toList_iff.mp listed, by simp [here, isLocal]⟩
    · rw [plain] at definition
      cases definition

private theorem nearest (bound : t.Bound) (name : String) (host : Nat)
    (inside : host < t.hosts.size) :
    ∃ chain, t.Outward host (host :: chain) ∧
      t.binderFrom name host = ((host :: chain).find? (t.localizes name)).getD 0 := by
  -- Parents have smaller numbers, so the way outwards ends.
  induction host using Nat.strongRecOn with
  | ind host ih =>
    have found := Array.getElem?_eq_getElem inside
    generalize t.hosts[host] = h at found
    rw [binderFrom, found]
    dsimp only
    rw [bound.binds_eq found name]
    cases host with
    | zero =>
      obtain ⟨g, here, kind, parent⟩ := bound.arranged.document
      obtain rfl := Option.some.inj (here.symm.trans found)
      refine ⟨[], .last found parent, ?_⟩
      simp [kind, bound.document]
    | succ id =>
      obtain ⟨kind, p, low, owner, parent, there, -⟩ := bound.arranged.inner id h found
      obtain ⟨chain, outward, same⟩ := ih p (Nat.lt_succ_of_le low)
        (Array.getElem?_eq_some_iff.mp there).1
      refine ⟨p :: chain, .inner found parent outward, ?_⟩
      cases localized : t.localizes name (id + 1) with
      | true => simp [localized]
      | false => simp [kind, localized, parent, Nat.lt_succ_of_le low, same]

private theorem owner_binds (bound : t.Bound) {r : Reference} (member : r ∈ t.references)
    (isLocal : r.isLocal = true) (small : Text.lower r.name = r.name) :
    t.binder r.owner r.name = r.owner := by
  obtain ⟨id, here⟩ := Array.mem_iff_getElem?.mp member
  obtain ⟨owner, found, -⟩ := bound.arranged.reference id r here
  have inside := (Array.getElem?_eq_some_iff.mp found).1
  obtain ⟨chain, -, nearest⟩ := bound.nearest r.name r.owner inside
  have localized := localizes_iff.mpr ⟨r, member, isLocal, rfl, rfl⟩
  rw [binder, small, nearest, List.find?_cons_of_pos localized, Option.getD_some]

end Bound

theorem Outward.encloses {t : ScopeTree} (arranged : t.Arranged) {host outer : Nat}
    {chain : List Nat} (outward : t.Outward host chain) (member : outer ∈ chain) {inner : Range}
    {h : Host} (found : t.hosts[host]? = some h) (within : inner.Within h.range) :
    ∃ g, t.hosts[outer]? = some g ∧ inner.Within g.range := by
  induction outward generalizing h with
  | last here outermost =>
    obtain rfl := List.mem_singleton.mp member
    exact ⟨h, found, within⟩
  | @inner host parent k chain here inside outward ih =>
    rcases List.mem_cons.mp member with rfl | further
    · exact ⟨h, found, within⟩
    · obtain rfl := Option.some.inj (found.symm.trans here)
      cases host with
      | zero =>
        obtain ⟨root, there, -, none⟩ := arranged.document
        obtain rfl := Option.some.inj (found.symm.trans there)
        rw [none] at inside
        cases inside
      | succ id =>
        obtain ⟨-, p, -, owner, parentEq, there, nested, -⟩ := arranged.inner id h found
        obtain rfl := Option.some.inj (parentEq.symm.trans inside)
        exact ih further there (within.trans nested)

private theorem Bound.captured {t : ScopeTree} (bound : t.Bound) {id host : Nat} {r : Reference}
    (here : t.references[id]? = some r) (resolved : t.referenceBinder? id = some host)
    (inner : host ≠ 0) : ∃ h, t.hosts[host]? = some h ∧ r.range.Within h.range := by
  obtain ⟨owner, found, within, -⟩ := bound.arranged.reference id r here
  obtain ⟨chain, outward, nearest⟩ := bound.nearest (Text.lower r.name) r.owner
    (Array.getElem?_eq_some_iff.mp found).1
  rw [referenceBinder?, here, Option.map_some, Option.some.injEq, binder, nearest] at resolved
  cases search : (r.owner :: chain).find? (t.localizes (Text.lower r.name)) with
  | none =>
    rw [search] at resolved
    exact absurd resolved.symm inner
  | some first =>
    rw [search] at resolved
    obtain rfl : first = host := resolved
    exact outward.encloses bound.arranged (List.mem_of_find?_eq_some search) found within

end ScopeTree

theorem Numbering.le_behind (n : Numbering) (entries : List ScopeEntry) :
    n.host ≤ (n.behind entries).host := by
  rw [n.behind_host 0]
  exact Nat.le_add_right _ _

namespace Outline

theorem referencesOf_owner (owner : Nat) (n : Numbering) (entries : List ScopeEntry) :
    ∀ r ∈ referencesOf owner n entries, r.owner = owner ∨ n.host ≤ r.owner := by
  fun_induction referencesOf owner n entries with
  | case1 => rintro r ⟨⟩
  | case2 owner n bound a rest ih => exact List.forall_mem_cons.mpr ⟨.inl rfl, ih⟩
  | case3 owner n kind range name inside rest within later =>
    have opened : n.host ≤ (n.opened name).host := Nat.le_succ n.host
    have grown := (n.opened name).le_behind inside
    simp only [List.forall_mem_append]
    refine ⟨⟨?_, ?_⟩, ?_⟩
    · intro r member
      obtain ⟨a, -, rfl⟩ := List.mem_map.mp member
      exact .inr (Nat.le_refl _)
    · intro r member
      rcases within r member with same | above
      · exact .inr same.ge
      · exact .inr (opened.trans above)
    · intro r member
      rcases later r member with same | above
      · exact .inl same
      · exact .inr (opened.trans (grown.trans above))

/-- What a host binds stands directly among its entries. -/
theorem bound_of_owner (owner : Nat) (n : Numbering) (entries : List ScopeEntry)
    (below : owner < n.host) : ∀ r ∈ referencesOf owner n entries, r.isLocal = true →
      r.owner = owner → ∃ a, .reference true a ∈ entries ∧ a.name = r.name := by
  fun_induction referencesOf owner n entries with
  | case1 => rintro r ⟨⟩
  | case2 owner n bound a rest ih =>
    refine List.forall_mem_cons.mpr ⟨?_, ?_⟩
    · rintro rfl -
      exact ⟨a, List.mem_cons_self, rfl⟩
    · intro r member isLocal owned
      obtain ⟨b, later, named⟩ := ih below r member isLocal owned
      exact ⟨b, List.mem_cons_of_mem _ later, named⟩
  | case3 owner n kind range name inside rest within later =>
    have grown := (n.opened name).le_behind inside
    have opened : (n.opened name).host = n.host + 1 := rfl
    simp only [List.forall_mem_append]
    refine ⟨⟨?_, ?_⟩, ?_⟩
    · intro r member isLocal
      obtain ⟨a, -, rfl⟩ := List.mem_map.mp member
      cases isLocal
    · intro r member isLocal owned
      have above := referencesOf_owner n.host (n.opened name) inside r member
      omega
    · intro r member isLocal owned
      obtain ⟨b, after, named⟩ := later (by omega) r member isLocal owned
      exact ⟨b, List.mem_cons_of_mem _ after, named⟩

/-- Outside of headers nothing is bound. -/
theorem ofNodes_plain (native : String → Bool) (atoms : Array Atom) (nodes : List Node) (a : Atom) :
    .reference true a ∉ ofNodes native atoms nodes := by
  fun_induction ofNodes native atoms nodes with
  | case1 => exact List.not_mem_nil
  | case2 index rest ih =>
    simp only [List.mem_append, not_or]
    refine ⟨?_, ih⟩
    simp [noted]
  | case3 span items rest plain inner ih => simpa only [List.mem_append, not_or] using ⟨inner, ih⟩
  | case4 span items rest v kind localizes slots inner ih => simpa using ih

end Outline

namespace Document

variable {d : Document}

private theorem Worded.not_stop_le (worded : d.Worded) {i : Nat} {a : Atom}
    (found : d.atoms[i]? = some a) : ¬ a.stop ≤ a.start := by
  obtain ⟨c, more, spelled, -⟩ := worded.starts i a found
  have later := a.start.advance_later a.symbol.toList
  rw [spelled, List.length_cons, ← spelled] at later
  rw [Atom.stop, Position.le_def]
  omega

/-- Atoms within the range of a stretch of atoms belong to it. -/
theorem Sourced.mem_of_within (sourced : d.Sourced) (worded : d.Worded) {i first stop : Nat}
    {a : Atom} {outer : Range} (found : d.atoms[i]? = some a)
    (spans : Spans d.atoms first stop outer) (within : a.range.Within outer) :
    first ≤ i ∧ i < stop := by
  obtain ⟨filled, b, c, start, last, rfl⟩ := spans
  constructor
  · by_contra before
    have ends := sourced.follow i first a b found start (Nat.lt_of_not_le before)
    exact worded.not_stop_le found (Position.le_trans ends within.1)
  · by_contra behind
    have starts := sourced.follow (stop - 1) i c a last found (by omega)
    exact worded.not_stop_le found (Position.le_trans within.2 starts)

theorem Sourced.spans (sourced : d.Sourced) {f : Form} (nested : f ∈ d.root.nested) :
    Spans d.atoms f.span.first f.span.stop (d.view.child f).range := by
  obtain ⟨-, filled, bound⟩ := sourced.forms f nested
  exact (d.view.child f).range_spans filled bound

theorem Sourced.holder_eq (sourced : d.Sourced) {f g : Form} {i : Nat} (left : f ∈ d.root.nested)
    (right : g ∈ d.root.nested) (first : .atom i ∈ f.items) (second : .atom i ∈ g.items) :
    f = g := by
  have distinct : d.root.leaves.Nodup := by
    rw [Form.leaves, sourced.covers.2]
    exact List.nodup_range'
  exact Form.holder_eq distinct (List.mem_cons_of_mem _ left) (List.mem_cons_of_mem _ right) first
    second

/-- The first glyph of a form tells it from all others. -/
theorem Sourced.nested_unique (sourced : d.Sourced) (worded : d.Worded) {f g : Form}
    (left : f ∈ d.root.nested) (right : g ∈ d.root.nested)
    (same : f.span.first = g.span.first) : f = g := by
  have glyph (f : Form) (nested : f ∈ d.root.nested) : .atom f.span.first ∈ f.items := by
    obtain ⟨i, rest, items, -⟩ := worded.opens f nested
    have covers := (sourced.forms f nested).1
    rw [items] at covers
    rw [items, covers.of_atom.1]
    exact List.mem_cons_self
  exact sourced.holder_eq left right (glyph f left) (same ▸ glyph g right)

/-- The range of a stretch of atoms tells where it starts and where it stops. -/
theorem Sourced.spans_unique (sourced : d.Sourced) (worded : d.Worded)
    {first stop left right : Nat} {r : Range} (one : Spans d.atoms first stop r)
    (other : Spans d.atoms left right r) : first = left ∧ stop = right := by
  have part {first stop left right : Nat} (inner : Spans d.atoms first stop r)
      (outer : Spans d.atoms left right r) : left ≤ first ∧ stop ≤ right := by
    obtain ⟨filled, a, b, start, last, -⟩ := id inner
    have low := sourced.within (.single start) inner (Nat.le_refl _) filled
    have high := sourced.within (.single last) inner (by omega) (by omega)
    have begins := sourced.mem_of_within worded start outer low
    have ends := sourced.mem_of_within worded last outer high
    omega
  have within := part one other
  have around := part other one
  omega

theorem Sourced.form_unique (sourced : d.Sourced) (worded : d.Worded) {f g : Form}
    (left : f ∈ d.root.nested) (right : g ∈ d.root.nested)
    (range : (d.view.child f).range = (d.view.child g).range) : f = g := by
  have spans := sourced.spans left
  rw [range] at spans
  exact sourced.nested_unique worded left right
    (sourced.spans_unique worded spans (sourced.spans right)).1

private theorem Sourced.creates_unique (sourced : d.Sourced) (worded : d.Worded) {f g : Form}
    {h : Host} (left : d.Creates f h) (right : d.Creates g h) : f = g :=
  sourced.form_unique worded left.1 right.1 (left.2.1.trans right.2.1.symm)

end Document

namespace ScopeTree

variable (native : String → Bool) (file : String) {d : Document}

theorem build_bound (sourced : d.Sourced) : (build native file d).Bound where
  arranged := sourced.arranged native file
  inner r member isLocal := by
    obtain ⟨mention, -, -, made⟩ := build_reference native file sourced member
    constructor
    · rw [made] at isLocal ⊢
      have role : mention.1 = .bound := of_decide_eq_true isLocal
      rw [Outline.referenceFor, role]
      rfl
    · intro owner
      rw [build_eq_ofOutline, ofOutline, List.mem_toArray] at member
      obtain ⟨b, direct, -⟩ :=
        Outline.bound_of_owner 0 .start _ Nat.zero_lt_one r member isLocal owner
      exact Outline.ofNodes_plain native d.atoms d.root.items b direct

/-- The hosts but the document were opened for forms that stand in their order. -/
theorem build_forms (d : Document) : ∃ forms : List Form, forms.Sublist d.root.nested ∧
    ∀ id h, (build native file d).hosts[id + 1]? = some h →
      ∃ f, forms[id]? = some f ∧ d.Creates f h := by
  obtain ⟨forms, part, opened⟩ := Outline.hostsOf_ofNodes native d.atoms 0 .start d.root.items
  refine ⟨forms, part, ?_⟩
  intro id h found
  rw [build_eq_ofOutline, ofOutline, List.getElem?_toArray, List.getElem?_cons_succ] at found
  obtain ⟨low, rfl⟩ := List.getElem?_eq_some_iff.mp found
  have high := opened.length_eq ▸ low
  obtain ⟨kind, range⟩ := opened.get low high
  exact ⟨forms[id], List.getElem?_eq_getElem high, part.subset (List.getElem_mem high), range,
    (kindOf_eq d.atoms _ _).trans kind⟩

theorem build_created (sourced : d.Sourced) (worded : d.Worded) {host : Nat} {h : Host}
    (inner : host ≠ 0) (found : (build native file d).hosts[host]? = some h) :
    ∃! f, d.Creates f h := by
  obtain ⟨id, rfl⟩ := Nat.exists_eq_succ_of_ne_zero inner
  obtain ⟨forms, -, opened⟩ := build_forms native file d
  obtain ⟨f, -, creates⟩ := opened id h found
  exact ⟨f, creates, fun g other => sourced.creates_unique worded other creates⟩

theorem build_lexical (sourced : d.Sourced) (worded : d.Worded) :
    (build native file d).Lexical d := by
  have bound := build_bound native file sourced
  constructor
  · intro host key inside
    obtain ⟨chain, outward, nearest⟩ := bound.nearest (Text.lower key) host inside
    exact ⟨host :: chain, outward, nearest⟩
  · exact bound.document
  · intro host key beyond
    rw [binder, binderFrom, Array.getElem?_eq_none beyond]
  · intro r member isLocal
    obtain ⟨mention, -, -, made⟩ := build_reference native file sourced member
    apply bound.owner_binds member isLocal
    rw [made]
    exact Text.lower_lower mention.2.symbol
  · intro host h inner found
    exact build_created native file sourced worded inner found
  · intro id r host here resolved inner
    obtain ⟨h, found, within⟩ := bound.captured here resolved inner
    obtain ⟨f, creates, -⟩ := build_created native file sourced worded inner found
    obtain ⟨mention, -, atom, made⟩ :=
      build_reference native file sourced (Array.mem_of_getElem? here)
    have range : r.range = mention.2.range := by rw [made]; rfl
    rw [range, ← creates.2.1] at within
    have inside := sourced.mem_of_within worded atom (sourced.spans creates.1) within
    exact ⟨h, f, found, creates, by simpa [Span.holds] using inside⟩

end ScopeTree

/-- Names are resolved lexically in every document, with its exported names marked or not. -/
theorem build_resolves (native names : String → Bool) (file text : String) :
    (ScopeTree.build native file (Document.build names text)).Lexical
        (Document.build names text) ∧
      (ScopeTree.build native file (Document.parse names text)).Lexical
        (Document.parse names text) := by
  constructor
  · exact ScopeTree.build_lexical native file (build_sourced names text) (build_worded names text)
  · exact ScopeTree.build_lexical native file (parse_sourced names text) (parse_worded names text)

end LispIndex
