import LispIndex.Proofs.CacheRuns
import LispIndex.Proofs.FormHeads
import LispIndex.Proofs.NameTable
import LispIndex.Proofs.Resolution

/-!
Exported names as targets. An exported name that stands in no other host than the one its form opens
is resolved to the document, unless that form lists the name among those it binds.
-/

namespace LispIndex

namespace Document

/-- A form binds a name: it defines it directly behind its head, or it assigns to variables. -/
inductive BindsIn (d : Document) (f : Form) (i : Nat) : Prop
  | definition (head : Nat) (front more : List Node)
      (named : d.Passes (Atom.isOneOf ["defun", "defun-q"]) head)
      (heads : d.Heads f head (front ++ .atom i :: more))
      (remarks : d.AllAtoms Atom.isComment front)
  | assignment (head : Nat) (rest : List Node) (named : d.Passes (Atom.isOneOf ["setq"]) head)
      (heads : d.Heads f head rest)

variable {d : Document} {f : Form} {i : Nat} {a : Atom}

section Annotate

private theorem AllAtoms.annotate {test : Atom → Bool} {items : List Node}
    (all : d.AllAtoms test items) (spelled : ∀ a b : Atom, a.symbol = b.symbol → test a = test b) :
    d.annotate.1.AllAtoms test items := by
  intro node member
  obtain ⟨k, rfl, passes⟩ := all node member
  exact ⟨k, rfl, passes.annotate spelled⟩

private theorem Heads.annotate {head : Nat} {rest : List Node} (heads : d.Heads f head rest) :
    d.annotate.1.Heads f head rest := by
  obtain ⟨front, split, opening⟩ := heads
  refine ⟨front, split, opening.annotate ?_⟩
  intro a b same
  rw [Atom.isOpening, Atom.isOpening, Atom.isComment, Atom.isLeftParen, Atom.isQuote, same]
  rfl

private theorem BindsIn.annotate (binds : d.BindsIn f i) : d.annotate.1.BindsIn f i := by
  have named (names : List String) (a b : Atom) (same : a.symbol = b.symbol) :
      a.isOneOf names = b.isOneOf names := by rw [Atom.isOneOf, Atom.isOneOf, same]
  cases binds with
  | definition head front more isDefun heads remarks =>
    refine .definition head front more (isDefun.annotate (named _)) heads.annotate ?_
    exact remarks.annotate fun a b same => by rw [Atom.isComment, Atom.isComment, same]
  | assignment head rest isSetq heads =>
    exact .assignment head rest (isSetq.annotate (named _)) heads.annotate

end Annotate

open Export

/-- A name with a context stands in a form that binds it. -/
theorem Reads.bindsIn {lexemes : List Lexeme} (reads : d.Reads lexemes) (sourced : d.Sourced)
    (worded : d.Worded) (here : d.atoms[i]? = some a) (plain : a.isPrimitive = false)
    {c : Context} (found : bindingContext? (.scan d.atoms) d.atoms i = some c) :
    ∃ f ∈ d.root.nested, .atom i ∈ f.items ∧ d.BindsIn f i := by
  rw [bindingContext?] at found
  split_ifs at found
  rcases Option.or_eq_some_iff.mp found with defined | ⟨-, assigned⟩
  · obtain ⟨head, kept, -⟩ := Option.map_eq_some_iff.mp defined
    obtain ⟨heading, next⟩ := Option.filter_eq_some_iff.mp kept
    obtain ⟨named, f, nested, item, rest, heads, suffix, covers⟩ :=
      reads.headed sourced worded (by decide) here plain heading
    obtain ⟨behind, -, comments⟩ := nextCode?_eq_some_iff.mp (beq_iff_eq.mp next)
    have inside := (sourced.forms f nested).1.mem_leavesOf.mp (Node.mem_leavesOf.mpr (.inl item))
    obtain ⟨front, more, rfl, remarks, -⟩ := worded.items_front covers
      (fun g member => Form.nested_trans nested (Node.formsOf_suffix suffix member)) behind inside.2
      comments (not_glyph here (Atom.isOpening_of_plain plain))
    exact ⟨f, nested, item, .definition head front more named heads remarks⟩
  · obtain ⟨head, kept, -⟩ := Option.map_eq_some_iff.mp assigned
    obtain ⟨heading, -⟩ := Option.filter_eq_some_iff.mp kept
    obtain ⟨named, f, nested, item, rest, heads, -⟩ :=
      reads.headed sourced worded (by decide) here plain heading
    exact ⟨f, nested, item, .assignment head rest named heads⟩

end Document

namespace Outline

/-- Forms that open no host leave the outline of what they hold in their place. -/
theorem ofNodes_reached (native : String → Bool) (atoms : Array Atom) {f : Form}
    (nodes : List Node) (nested : f ∈ Node.formsOf nodes)
    (plain : ∀ g ∈ Node.formsOf nodes, f ∈ g.nested → kindOf atoms g.items = none) :
    ∃ front back, ofNodes native atoms nodes =
      front ++ ofNodes native atoms [.form f.span f.items] ++ back := by
  fun_induction ofNodes native atoms nodes with
  | case1 => cases nested
  | case2 index rest ih =>
    obtain ⟨front, back, split⟩ := ih nested plain
    exact ⟨noted native atoms false (.atom index) ++ front, back, by simp [split]⟩
  | case3 span items rest unhosted inner ih =>
    rw [Node.formsOf, Node.forms] at nested plain
    rcases List.mem_append.mp nested with here | later
    · rcases List.mem_cons.mp here with rfl | deeper
      · exact ⟨[], ofNodes native atoms rest, by simp [ofNodes, unhosted]⟩
      · obtain ⟨front, back, split⟩ := inner deeper fun g member =>
          plain g (List.mem_append_left _ (List.mem_cons_of_mem _ member))
        exact ⟨front, back ++ ofNodes native atoms rest, by simp [split]⟩
    · obtain ⟨front, back, split⟩ := ih later fun g member =>
        plain g (List.mem_append_right _ member)
      exact ⟨ofNodes native atoms items ++ front, back, by simp [split]⟩
  | case4 span items rest v kind localizes slots inner ih =>
    rw [Node.formsOf, Node.forms] at nested plain
    rcases List.mem_append.mp nested with here | later
    · rcases List.mem_cons.mp here with rfl | deeper
      · exact ⟨[], ofNodes native atoms rest, by simp [ofNodes, localizes, v, slots]⟩
      · have unhosted := plain ⟨span, items⟩ (List.mem_append_left _ List.mem_cons_self) deeper
        cases localizes.symm.trans unhosted
    · obtain ⟨front, back, split⟩ := ih later fun g member =>
        plain g (List.mem_append_right _ member)
      exact ⟨_ :: front, back, by rw [split]; rfl⟩

theorem mem_referencesOf (owner : Nat) (n : Numbering) {entries : List ScopeEntry} {bound : Bool}
    {a : Atom} (member : .reference bound a ∈ entries) :
    ⟨a.name, a.index, a.range, false, bound, owner⟩ ∈ referencesOf owner n entries := by
  fun_induction referencesOf owner n entries with
  | case1 => cases member
  | case2 owner n other b rest ih =>
    rcases List.mem_cons.mp member with same | later
    · cases same
      exact List.mem_cons_self
    · exact List.mem_cons_of_mem _ (ih later)
  | case3 owner n kind range name inside rest within later =>
    rcases List.mem_cons.mp member with same | after
    · cases same
    · exact List.mem_append_right _ (later after)

theorem referencesOf_append (owner : Nat) (n : Numbering) (left right : List ScopeEntry) :
    referencesOf owner n (left ++ right) =
      referencesOf owner n left ++ referencesOf owner (n.behind left) right := by
  fun_induction referencesOf owner n left with
  | case1 => simp [Numbering.behind]
  | case2 owner n bound a rest ih => simp [referencesOf, Numbering.behind, ih]
  | case3 owner n kind range name inside rest within ih =>
    simp [referencesOf, Numbering.behind, ih]

private theorem referencesOf_lt (owner : Nat) (n : Numbering) (entries : List ScopeEntry)
    (below : owner < n.host) :
    ∀ r ∈ referencesOf owner n entries, r.owner < (n.behind entries).host := by
  fun_induction referencesOf owner n entries with
  | case1 => rintro r ⟨⟩
  | case2 owner n bound a rest ih =>
    rw [Numbering.behind]
    exact List.forall_mem_cons.mpr ⟨below.trans_le (n.noted.le_behind rest), ih below⟩
  | case3 owner n kind range name inside rest within later =>
    rw [Numbering.behind]
    have opened : (n.opened name).host = n.host + 1 := rfl
    have grown := (n.opened name).le_behind inside
    have whole := ((n.opened name).behind inside).le_behind rest
    simp only [List.forall_mem_append]
    refine ⟨⟨?_, ?_⟩, later (by omega)⟩
    · intro r member
      obtain ⟨a, -, rfl⟩ := List.mem_map.mp member
      dsimp only
      omega
    · intro r member
      exact (within (by omega) r member).trans_le whole

theorem exists_bound_iff {front back inside : List ScopeEntry} {kind : HostKind} {range : Range}
    {name : Option Atom} (key : String) :
    (∃ r ∈ referencesOf 0 .start (front ++ .host kind range name inside :: back),
        r.isLocal = true ∧ r.owner = (Numbering.start.behind front).host ∧ r.name = key) ↔
      ∃ b, .reference true b ∈ inside ∧ b.name = key := by
  generalize middle : Numbering.start.behind front = n
  have positive : 0 < n.host := by
    rw [← middle]
    exact Numbering.start.le_behind front
  have opened : (n.opened name).host = n.host + 1 := rfl
  rw [referencesOf_append, middle, referencesOf]
  constructor
  · -- The entries before the host have smaller owners, those behind it the document or larger ones.
    rintro ⟨r, member, isLocal, owner, rfl⟩
    rcases List.mem_append.mp member with before | here
    · have early := referencesOf_lt 0 .start front Nat.zero_lt_one r before
      rw [middle] at early
      omega
    · rcases List.mem_append.mp here with first | later
      · rcases List.mem_append.mp first with naming | within
        · obtain ⟨a, -, rfl⟩ := List.mem_map.mp naming
          cases isLocal
        · exact bound_of_owner n.host _ inside (by omega) r within isLocal owner
      · have late := referencesOf_owner 0 _ back r later
        have grown := (n.opened name).le_behind inside
        omega
  · rintro ⟨b, member, rfl⟩
    refine ⟨_, List.mem_append_right _ (List.mem_append_left _ (List.mem_append_right _
      (mem_referencesOf _ _ member))), rfl, rfl, rfl⟩

end Outline

def FormView.header (v : FormView) (kind : HostKind) : List Atom :=
  match v.key? kind.headerKey with
  | some (.atom a) => [a]
  | some (.form list) => ScopeTree.directAtoms list
  | none => []

namespace Outline

variable {native : String → Bool}

theorem mem_noted {atoms : Array Atom} {bound : Bool} {node : Node} {b : Atom} :
    .reference bound b ∈ noted native atoms bound node ↔
      atomOf atoms node = some b ∧ b.isTracked native = true := by
  simp [noted, Option.mem_toList]

theorem mem_header {v : FormView} {kind : HostKind} {b : Atom} :
    .reference true b ∈ (fromKey v kind.headerKey (v.form.items.drop 1)).head?.toList.flatMap
        (headerOf native v.atoms) ↔ b ∈ v.header kind ∧ b.isTracked native = true := by
  rw [FormView.header, key?_eq]
  cases fromKey v kind.headerKey (v.form.items.drop 1) with
  | nil => simp
  | cons node rest =>
    rw [List.head?_cons, Option.toList_some, List.flatMap_singleton, Option.bind_some]
    cases node with
    | atom index =>
      rw [headerOf, mem_noted, atomOf, Node.index?, Option.bind_some, FormView.piece?]
      cases v.atoms[index]? with
      | none => simp
      | some a =>
        rw [Option.some.injEq, Option.map_some, eq_comm]
        exact and_congr_left' List.mem_singleton.symm
    | form span items =>
      have direct : b ∈ ScopeTree.directAtoms (v.child ⟨span, items⟩) ↔
          ∃ node ∈ items, atomOf v.atoms node = some b := List.mem_filterMap
      rw [headerOf, List.mem_flatMap, FormView.piece?]
      dsimp only
      rw [direct]
      simp only [mem_noted, exists_and_right, ← and_assoc]

end Outline

namespace Document

open Outline

variable {d : Document} {f : Form} {head : Nat} {front nodes rest : List Node}

private theorem AllAtoms.headOf (opening : d.AllAtoms Atom.isOpening front) (nodes : List Node) :
    Outline.headOf d.atoms (front ++ nodes) = Outline.headOf d.atoms nodes := by
  induction front with
  | nil => rfl
  | cons node front ih =>
    obtain ⟨⟨i, rfl, a, found, passed⟩, others⟩ := List.forall_mem_cons.mp opening
    rw [List.cons_append, Outline.headOf, found]
    exact (if_pos passed).trans (ih others)

private theorem AllAtoms.fromKey (opening : d.AllAtoms Atom.isOpening front) (n : Nat)
    (nodes : List Node) :
    Outline.fromKey (d.view.child f) n (front ++ nodes) =
      Outline.fromKey (d.view.child f) n nodes := by
  induction front with
  | nil => rfl
  | cons node front ih =>
    obtain ⟨⟨i, rfl, a, found, passed⟩, others⟩ := List.forall_mem_cons.mp opening
    have other : (d.view.child f).isKey (.atom i) = false := by
      have here : (d.view.child f).atoms[i]? = some a := found
      rw [FormView.isKey, here, Option.any_some]
      rw [Atom.isOpening, Bool.or_eq_true, Bool.or_eq_true] at passed
      rcases passed with (comment | left) | quote
      · simp [comment]
      · simp [left]
      · simp [quote]
    rw [List.cons_append]
    cases n with
    | zero => rw [Outline.fromKey, if_neg (by simp [other]), ih others]
    | succ n => rw [Outline.fromKey, if_neg (by simp [other]), ih others]

private theorem Heads.kindOf (heads : d.Heads f head rest) {h : Atom}
    (here : d.atoms[head]? = some h) (plain : h.isOpening = false) :
    Outline.kindOf d.atoms f.items = HostKind.ofHead? h.symbol := by
  obtain ⟨front, split, opening⟩ := heads
  have first : Outline.headOf d.atoms (.atom head :: rest) = some h := by
    rw [Outline.headOf, here]
    exact if_neg (by rw [← Atom.isOpening, plain]; exact Bool.false_ne_true)
  rw [Outline.kindOf, split, opening.headOf, first, Option.bind_some]

private theorem Heads.fromKey (heads : d.Heads f head rest)
    (key : (d.view.child f).isKey (.atom head) = true) (n : Nat) :
    Outline.fromKey (d.view.child f) (n + 1) (f.items.drop 1) =
      Outline.fromKey (d.view.child f) n rest := by
  obtain ⟨front, split, opening⟩ := heads
  rw [split, opening.fromKey, Outline.fromKey, if_pos key]

end Document

namespace ScopeTree

variable {t : ScopeTree}

private theorem Arranged.resolved (arranged : t.Arranged) {r : Reference}
    (member : r ∈ t.references) :
    (t.referenceAt? r.index).bind t.referenceBinder? = some (t.binder r.owner r.name) := by
  obtain ⟨id, here⟩ := Array.mem_iff_getElem?.mp member
  rw [(arranged.found r.index id).mpr ⟨r, here, rfl⟩, Option.bind_some, referenceBinder?, here,
    Option.map_some]

private theorem Bound.binder_document (bound : t.Bound) (key : String) : t.binder 0 key = 0 := by
  obtain ⟨h, found, kind, -⟩ := bound.arranged.document
  rw [binder, binderFrom, found]
  exact if_pos (by rw [kind]; rfl)

private theorem Bound.binder_of_parent (bound : t.Bound) {host : Nat} {h : Host} (inner : 0 < host)
    (found : t.hosts[host]? = some h) (outer : h.parent = some 0) (key : String) :
    t.binder host key = if t.localizes (Text.lower key) host then host else 0 := by
  have kind : h.kind ≠ .root := by
    obtain ⟨id, rfl⟩ := Nat.exists_eq_succ_of_ne_zero inner.ne'
    exact (bound.arranged.inner id h found).1
  have document : t.binderFrom (Text.lower key) 0 = 0 := bound.binder_document key
  rw [binder, binderFrom, found]
  simp only [bound.binds_eq found, kind, outer, inner, document, decide_false, Bool.false_or,
    if_true]

private theorem ofOutline_host (file : String) (range outer : Range)
    {front back inside : List ScopeEntry} {kind : HostKind} {name : Option Atom} :
    ∃ h, (ofOutline file outer (front ++ .host kind range name inside :: back)).hosts[
        (Numbering.start.behind front).host]? = some h ∧ h.parent = some 0 := by
  rw [Numbering.behind_host 0, ofOutline, Outline.hostsOf_append, Outline.hostsOf,
    List.getElem?_toArray, Numbering.start, Nat.add_comm, List.getElem?_cons_succ,
    List.getElem?_append_right (Nat.le_refl _), Nat.sub_self, List.getElem?_cons_zero]
  exact ⟨_, rfl, rfl⟩

/-- The name of a host right below the document resolves to the document, unless the host binds
it. -/
theorem Bound.resolved_name (bound : t.Bound) {file : String} {outer range : Range}
    {kind : HostKind} {a : Atom} {front inside back : List ScopeEntry}
    (made : t = ofOutline file outer (front ++ .host kind range (some a) inside :: back)) :
    (t.referenceAt? a.index).bind t.referenceBinder? = some 0 ↔
      ¬ ∃ b, .reference true b ∈ inside ∧ b.name = a.name := by
  have references : t.references.toList =
      Outline.referencesOf 0 .start (front ++ .host kind range (some a) inside :: back) := by
    rw [made, ofOutline]
  generalize numbered : (Numbering.start.behind front).host = host
  have inner : 0 < host := by
    rw [← numbered]
    exact Numbering.start.le_behind front
  obtain ⟨h, found, parent⟩ : ∃ h, t.hosts[host]? = some h ∧ h.parent = some 0 := by
    rw [made, ← numbered]
    exact ofOutline_host file range outer
  have listed : ⟨a.name, a.index, a.range, true, false, host⟩ ∈ t.references := by
    rw [← Array.mem_toList_iff, references, Outline.referencesOf_append, Outline.referencesOf,
      numbered]
    simp
  -- The name belongs to the host that it names, which looks it up like any other.
  have localized : t.localizes (Text.lower a.name) host = true ↔
      ∃ b, .reference true b ∈ inside ∧ b.name = a.name := by
    rw [show Text.lower a.name = a.name from Text.lower_lower a.symbol, localizes_iff,
      ← Outline.exists_bound_iff, ← references, numbered]
    simp only [Array.mem_toList_iff]
  rw [bound.arranged.resolved listed, Option.some.injEq, bound.binder_of_parent inner found parent,
    ite_eq_right_iff, localized]
  constructor
  · intro resolved binds
    exact inner.ne' (resolved binds)
  · intro free binds
    exact absurd binds free

end ScopeTree

private theorem HostKind.ofHead?_of_defun {symbol : String}
    (named : ["defun", "defun-q"].any (Text.sameName symbol) = true) :
    ∃ kind, ofHead? symbol = some kind ∧ kind.isNamed = true := by
  rw [List.any_cons, List.any_cons, List.any_nil, Bool.or_false, Bool.or_eq_true] at named
  rw [ofHead?]
  split_ifs with defun defunQ
  · exact ⟨.defun, rfl, rfl⟩
  · exact ⟨.defunQ, rfl, rfl⟩
  all_goals exact absurd named (not_or.mpr ⟨defun, defunQ⟩)

private theorem HostKind.ofHead?_of_setq {symbol : String}
    (named : ["setq"].any (Text.sameName symbol) = true) : ofHead? symbol = none := by
  rw [List.any_cons, List.any_nil, Bool.or_false, Text.sameName, beq_iff_eq] at named
  simp only [ofHead?, Text.sameName, named]
  decide

namespace Document

def hostKind? (d : Document) (f : Form) : Option HostKind :=
  (d.view.child f).head?.bind fun head => HostKind.ofHead? head.symbol

/-- No form around the one that has the atom opens a host. -/
def Outermost (d : Document) (i : Nat) : Prop :=
  ∀ g ∈ d.root.nested, ∀ f ∈ g.nested, .atom i ∈ f.items → d.hostKind? g = none

/-- The form that has the atom opens a host that binds the name of the atom. -/
def HidesItself (d : Document) (i : Nat) : Prop :=
  ∃ f ∈ d.root.nested, ∃ kind a b, .atom i ∈ f.items ∧ d.hostKind? f = some kind ∧
    d.atoms[i]? = some a ∧ b ∈ (d.view.child f).header kind ∧ b.name = a.name

instance (d : Document) (i : Nat) : Decidable (d.Outermost i) :=
  decidable_of_iff (d.root.nested.all (fun g => g.nested.all fun f =>
      !f.atoms.contains i || (d.hostKind? g).isNone) = true)
    (by simp [Outermost, Form.mem_atoms, imp_iff_not_or])

instance (d : Document) (i : Nat) : Decidable (d.HidesItself i) :=
  decidable_of_iff (d.root.nested.any (fun f => f.atoms.contains i &&
      (d.hostKind? f).any fun kind => d.atoms[i]?.any fun a =>
        ((d.view.child f).header kind).any fun b => b.name == a.name) = true)
    (by simp [HidesItself, Form.mem_atoms, Option.any_eq_true])

variable {d : Document} {f : Form} {i : Nat} {a : Atom} {native : String → Bool}

private theorem hostKind?_eq (d : Document) (f : Form) :
    d.hostKind? f = Outline.kindOf d.atoms f.items :=
  ScopeTree.kindOf_eq d.atoms f.span f.items

theorem Sourced.hidesItself_iff (sourced : d.Sourced) (nested : f ∈ d.root.nested)
    (item : .atom i ∈ f.items) (here : d.atoms[i]? = some a) : d.HidesItself i ↔
      ∃ kind, d.hostKind? f = some kind ∧
        ∃ b ∈ (d.view.child f).header kind, b.name = a.name := by
  constructor
  · rintro ⟨g, other, kind, c, b, held, opens, there, header, named⟩
    obtain rfl := sourced.holder_eq nested other item held
    obtain rfl := Option.some.inj (here.symm.trans there)
    exact ⟨kind, opens, b, header, named⟩
  · rintro ⟨kind, opens, b, header, named⟩
    exact ⟨f, nested, kind, a, b, item, opens, here, header, named⟩

private theorem ofNodes_definition (worded : d.Worded) (here : d.atoms[i]? = some a)
    (tracked : a.isTracked native = true) {head : Nat} {front more : List Node}
    (named : d.Passes (Atom.isOneOf ["defun", "defun-q"]) head)
    (heads : d.Heads f head (front ++ .atom i :: more))
    (remarks : d.AllAtoms Atom.isComment front) :
    ∃ kind inside, d.hostKind? f = some kind ∧
      Outline.ofNodes native d.atoms [.form f.span f.items] =
        [.host kind (d.view.child f).range (some a) inside] ∧
      ∀ b, .reference true b ∈ inside ↔
        b ∈ (d.view.child f).header kind ∧ b.isTracked native = true := by
  obtain ⟨h, there, spelled⟩ := named
  obtain ⟨kind, opens, isNamed⟩ := HostKind.ofHead?_of_defun spelled
  have plain : h.isOpening = false := Atom.isOpening_of_isOneOf (by decide) spelled
  have hosted := heads.kindOf there plain
  rw [opens] at hosted
  have key : (d.view.child f).isKey (.atom head) = true :=
    Outline.isKey_of_head there (by rw [← Atom.isOpening, plain]; exact Bool.false_ne_true) opens
  have name : Outline.nameOf (d.view.child f) kind f.items = some a := by
    have isKey : (d.view.child f).isKey (.atom i) = true :=
      Outline.isKey_of_tracked here (worded.starts i a here) tracked
    rw [Outline.nameOf, if_pos isNamed, heads.fromKey key, remarks.opening.fromKey, Outline.fromKey,
      if_pos isKey]
    exact here
  generalize slots : Outline.fromKey (d.view.child f) kind.headerKey (f.items.drop 1) = behind
  refine ⟨kind, behind.head?.toList.flatMap (Outline.headerOf native d.atoms) ++
    Outline.ofNodes native d.atoms behind.tail, (d.hostKind?_eq f).trans hosted, ?_, ?_⟩
  · rw [← name, ← slots, Outline.ofNodes, hosted]
    simp only [Outline.ofNodes]
    rfl
  · intro b
    have header :
        .reference true b ∈ behind.head?.toList.flatMap (Outline.headerOf native d.atoms) ↔
          b ∈ (d.view.child f).header kind ∧ b.isTracked native = true := by
      rw [← slots]
      exact Outline.mem_header (v := d.view.child f)
    rw [List.mem_append, header]
    exact or_iff_left (Outline.ofNodes_plain native d.atoms behind.tail b)

theorem mem_ofNodes (here : d.atoms[i]? = some a) (tracked : a.isTracked native = true)
    {nodes : List Node} (member : .atom i ∈ nodes) :
    .reference false a ∈ Outline.ofNodes native d.atoms nodes := by
  induction nodes with
  | nil => cases member
  | cons node rest ih =>
    rw [Outline.ofNodes_cons]
    rcases List.mem_cons.mp member with rfl | later
    · rw [Outline.ofNodes, Outline.ofNodes, List.append_nil]
      exact List.mem_append_left _ (Outline.mem_noted.mpr ⟨here, tracked⟩)
    · exact List.mem_append_right _ (ih later)

private theorem ofNodes_assignment (here : d.atoms[i]? = some a)
    (tracked : a.isTracked native = true) (item : .atom i ∈ f.items) {head : Nat} {rest : List Node}
    (named : d.Passes (Atom.isOneOf ["setq"]) head) (heads : d.Heads f head rest) :
    d.hostKind? f = none ∧
      .reference false a ∈ Outline.ofNodes native d.atoms [.form f.span f.items] := by
  obtain ⟨h, there, spelled⟩ := named
  have plain := heads.kindOf there (Atom.isOpening_of_isOneOf (by decide) spelled)
  rw [HostKind.ofHead?_of_setq spelled] at plain
  refine ⟨(d.hostKind?_eq f).trans plain, ?_⟩
  rw [Outline.ofNodes, plain]
  exact List.mem_append_left _ (mem_ofNodes here tracked item)

/-- A bound name that is in no host around its form resolves to the document unless it hides
itself. -/
theorem Sourced.resolved_iff (sourced : d.Sourced) (worded : d.Worded) (file : String)
    (here : d.atoms[i]? = some a) (tracked : a.isTracked native = true)
    (nested : f ∈ d.root.nested) (item : .atom i ∈ f.items) (binds : d.BindsIn f i)
    (outermost : d.Outermost i) :
    ((ScopeTree.build native file d).referenceAt? i).bind
        (ScopeTree.build native file d).referenceBinder? = some 0 ↔ ¬ d.HidesItself i := by
  have bound := ScopeTree.build_bound native file sourced
  obtain ⟨front, back, split⟩ := Outline.ofNodes_reached native d.atoms d.root.items nested
    fun g member inside =>
      (d.hostKind?_eq g).symm.trans (outermost g member f inside item)
  rw [sourced.hidesItself_iff nested item here, ← sourced.indexed i a here]
  rw [ScopeTree.build_eq_ofOutline, split] at bound ⊢
  -- A definition is a host of its own below the document, an assignment is none.
  cases binds with
  | definition head before more named heads remarks =>
    obtain ⟨kind, inside, opens, host, header⟩ :=
      ofNodes_definition worded here tracked named heads remarks
    rw [host, List.append_assoc, List.singleton_append] at bound ⊢
    have hides : (∃ kind, d.hostKind? f = some kind ∧
        ∃ b ∈ (d.view.child f).header kind, b.name = a.name) ↔
          ∃ b, .reference true b ∈ inside ∧ b.name = a.name := by
      rw [opens]
      constructor
      · rintro ⟨other, same, b, member, named⟩
        obtain rfl := Option.some.inj same
        have listed := (Atom.isTracked_of_name named native).trans tracked
        exact ⟨b, (header b).mpr ⟨member, listed⟩, named⟩
      · rintro ⟨b, member, named⟩
        exact ⟨kind, rfl, b, ((header b).mp member).1, named⟩
    rw [hides]
    exact bound.resolved_name rfl
  | assignment head rest named heads =>
    obtain ⟨plain, member⟩ := ofNodes_assignment here tracked item named heads
    have listed := Outline.mem_referencesOf 0 .start
      (List.mem_append_left back (List.mem_append_right front member))
    rw [bound.arranged.resolved (List.mem_toArray.mpr listed), bound.binder_document]
    refine iff_of_true rfl ?_
    rintro ⟨kind, opens, -⟩
    rw [plain] at opens
    cases opens

end Document

/-- An exported name is in the table, and stands in a form that binds it. -/
theorem parse_exported {native : String → Bool} {text : String} {i : Nat} {a : Atom}
    (here : (Document.parse native text).atoms[i]? = some a) (exported : a.exported = true) :
    a.isTracked native = true ∧ i ∈ (Document.parse native text).occurrences a.name ∧
      ∃ f ∈ (Document.parse native text).root.nested, .atom i ∈ f.items ∧
        (Document.parse native text).BindsIn f i := by
  have sourced := build_sourced native text
  rw [((build_unmarked native text).marks here).2, Option.any_eq_true] at exported
  obtain ⟨c, context, -⟩ := exported
  obtain ⟨lists, -, found⟩ := Document.of_context? context
  obtain ⟨b, there, tracked⟩ := (sourced.lists_iff rfl).mp lists
  obtain ⟨e, same, symbol, -⟩ :=
    (Document.marks_atoms _ (Document.build native text).atoms).2 i a here
  obtain rfl := Option.some.inj (there.symm.trans same)
  have named : a.name = b.name := congrArg Text.lower symbol
  have parts := tracked
  rw [Atom.isTracked, Bool.and_eq_true, Bool.not_eq_true', Bool.not_eq_true'] at parts
  obtain ⟨plain, foreign⟩ := parts
  refine ⟨(Atom.isTracked_of_name named native).trans tracked, ?_, ?_⟩
  · have located := (build_indexes native text).occurrences b.name
    have small : Text.lower b.name = b.name := Text.lower_lower b.symbol
    rw [small] at located
    rw [named]
    exact (located.2 i).mpr ⟨b, there, plain, rfl, foreign⟩
  · obtain ⟨f, nested, item, binds⟩ := (build_reads native text).bindsIn sourced
      (build_worded native text) there plain found
    exact ⟨f, nested, item, binds.annotate⟩

/-- An exported name that is in no other host than its own resolves to the document, unless it hides
itself. -/
theorem exported_resolved_iff (native : String → Bool) (file text : String) {i : Nat} {a : Atom}
    (here : (Document.parse native text).atoms[i]? = some a) (exported : a.exported = true)
    (outermost : (Document.parse native text).Outermost i) :
    ((ScopeTree.build native file (Document.parse native text)).referenceAt? i).bind
        (ScopeTree.build native file (Document.parse native text)).referenceBinder? = some 0 ↔
      ¬ (Document.parse native text).HidesItself i := by
  obtain ⟨tracked, -, f, nested, item, binds⟩ := parse_exported here exported
  exact (parse_sourced native text).resolved_iff (parse_worded native text) file here tracked nested
    item binds outermost

namespace ScopeCache

private theorem exportsGlobally_eq (c : ScopeCache) (s : Source) (name : String) :
    (c.exportsGlobally s name).1 = (s.exportsOf name).any fun index =>
      ((ScopeTree.build c.keywords.isNative s.path s.document).referenceAt? index).bind
        (ScopeTree.build c.keywords.isNative s.path s.document).referenceBinder? == some 0 := by
  rw [exportsGlobally]
  cases s.exportsOf name with
  | nil => rfl
  | cons index rest => rfl

/-- A name that is exported outside of all other hosts is exported globally, unless its own
definition hides it; if all that are exported are outside, only that can be in the way. -/
theorem exportsGlobally_outermost (keywords : KeywordOracle) (path text : String) (c : ScopeCache)
    (same : c.keywords = keywords) :
    let s := Source.ofText keywords path text
    (∀ i a, s.document.atoms[i]? = some a → a.exported = true → s.document.Outermost i →
      ¬ s.document.HidesItself i → (c.exportsGlobally s (Text.lower a.symbol)).1 = true) ∧
    ∀ name, (∀ i ∈ s.exportsOf name, s.document.Outermost i) →
      ((c.exportsGlobally s name).1 = true ↔
        ∃ i ∈ s.exportsOf name, ¬ s.document.HidesItself i) := by
  subst same
  intro s
  constructor
  · intro i a here exported outermost visible
    have listed : i ∈ s.exportsOf a.name := by
      refine List.mem_filter.mpr ⟨(parse_exported here exported).2.1, ?_⟩
      rw [here]
      exact exported
    rw [exportsGlobally_eq, List.any_eq_true]
    have resolved := (exported_resolved_iff _ path text here exported outermost).mpr visible
    exact ⟨i, listed, beq_iff_eq.mpr resolved⟩
  · intro name outermost
    rw [exportsGlobally_eq, List.any_eq_true]
    apply exists_congr
    intro i
    apply and_congr_right
    intro listed
    obtain ⟨a, here, exported⟩ := (Option.any_eq_true _ _).mp (List.mem_filter.mp listed).2
    exact beq_iff_eq.trans (exported_resolved_iff _ path text here exported (outermost i listed))

theorem exportsGlobally_outermost_nested :
    let keywords : KeywordOracle := ⟨["progn", "defun"].contains⟩
    let s := Source.ofText keywords "w/a.lsp" "(progn ;@Global\n(defun F (x) 1))"
    let c : ScopeCache := { settings := ⟨true, 1, true⟩, keywords }
    (∃ a, s.document.atoms[5]? = some a ∧ a.exported = true) ∧ s.document.Outermost 5 ∧
      ¬ s.document.HidesItself 5 ∧ (c.exportsGlobally s (Text.lower "F")).1 = true := by
  intro keywords s c
  have here : s.document.atoms[5]? = some ⟨"F", ⟨1, 7⟩, 5, [2], true⟩ := by decide +kernel
  have outermost : s.document.Outermost 5 := by decide +kernel
  have visible : ¬ s.document.HidesItself 5 := by decide +kernel
  have targets := (exportsGlobally_outermost keywords "w/a.lsp" "(progn ;@Global\n(defun F (x) 1))"
    c rfl).1 5 _ here rfl outermost visible
  exact ⟨⟨_, here, rfl⟩, outermost, visible, targets⟩

/-- A definition that lists its own name among its parameters is no target. -/
theorem not_exportsGlobally_of_parameter :
    let keywords : KeywordOracle := ⟨["defun"].contains⟩
    let s := Source.ofText keywords "c:/w/s.lsp" ";@Global\n(defun f (f) 1)"
    let c : ScopeCache := { settings := ⟨true, 1, true⟩, keywords }
    (∃ a, s.document.atoms[3]? = some a ∧ a.exported = true) ∧ s.document.Outermost 3 ∧
      (c.exportsGlobally s (Text.lower "f")).1 = false := by
  intro keywords s c
  have here : s.document.atoms[3]? = some ⟨"f", ⟨1, 7⟩, 3, [0], true⟩ := by decide +kernel
  have outermost : s.document.Outermost 3 := by decide +kernel
  have hidden : s.document.HidesItself 3 := by decide +kernel
  have exports : s.exportsOf (Text.lower "f") = [3] := by decide +kernel
  have resolved := exported_resolved_iff keywords.isNative s.path s.text here rfl outermost
  refine ⟨⟨_, here, rfl⟩, outermost, ?_⟩
  rw [exportsGlobally_eq, exports, List.any_cons, List.any_nil, Bool.or_false, beq_eq_false_iff_ne]
  exact fun document => resolved.mp document hidden

end ScopeCache

end LispIndex
