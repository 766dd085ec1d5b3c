import LispIndex.Scope
import Mathlib.Tactic.SplitIfs

/-!
Scopes by recursive descent. The outline of a document is the tree of its hosts, read off the tree
of forms by recursion; hosts and references are numbered as they stand in it. The scopes that the
walk builds are those of the outline.
-/

namespace LispIndex

/-- What a host holds, in source order: occurrences of names, some of them bound by the host, and
hosts with what they hold. -/
inductive ScopeEntry where
  | reference (bound : Bool) (a : Atom)
  | host (kind : HostKind) (range : Range) (name : Option Atom) (inside : List ScopeEntry)

namespace Outline

def atomOf (atoms : Array Atom) (node : Node) : Option Atom :=
  node.index?.bind (atoms[·]?)

def headOf (atoms : Array Atom) : List Node → Option Atom
  | [] => none
  | .form _ _ :: _ => none
  | .atom index :: rest =>
    match atoms[index]? with
    | none => headOf atoms rest
    | some a => if a.isComment || a.isLeftParen || a.isQuote then headOf atoms rest else some a

def fromKey (v : FormView) : Nat → List Node → List Node
  | _, [] => []
  | 0, node :: rest => if v.isKey node then node :: rest else fromKey v 0 rest
  | n + 1, node :: rest => fromKey v (if v.isKey node then n else n + 1) rest

def kindOf (atoms : Array Atom) (items : List Node) : Option HostKind :=
  (headOf atoms (items.drop 1)).bind fun head => HostKind.ofHead? head.symbol

def nameOf (v : FormView) (kind : HostKind) (items : List Node) : Option Atom :=
  if kind.isNamed then (fromKey v 1 (items.drop 1)).head?.bind (atomOf v.atoms) else none

def noted (native : String → Bool) (atoms : Array Atom) (bound : Bool) (node : Node) :
    List ScopeEntry :=
  ((atomOf atoms node).toList.filter (·.isTracked native)).map (.reference bound)

def headerOf (native : String → Bool) (atoms : Array Atom) : Node → List ScopeEntry
  | .atom index => noted native atoms true (.atom index)
  | .form _ items => items.flatMap (noted native atoms true)

private theorem weights_tail (nodes : List Node) :
    Node.weights nodes.tail ≤ Node.weights nodes := by
  cases nodes with
  | nil => exact Nat.le_refl _
  | cons node rest => exact Nat.le_add_left _ _

private theorem weights_fromKey (v : FormView) (n : Nat) (nodes : List Node) :
    Node.weights (fromKey v n nodes) ≤ Node.weights nodes := by
  fun_induction fromKey v n nodes with
  | case1 => exact Nat.le_refl _
  | case2 => exact Nat.le_refl _
  | case3 node rest _ ih => exact Nat.le_trans ih (Nat.le_add_left _ _)
  | case4 n node rest ih => exact Nat.le_trans ih (Nat.le_add_left _ _)

/-- The outline of some items. A form with the head of a host is one, which takes its name and the
names in its header and then what is behind the header; any other form is read in its place. -/
def ofNodes (native : String → Bool) (atoms : Array Atom) : List Node → List ScopeEntry
  | [] => []
  | .atom index :: rest => noted native atoms false (.atom index) ++ ofNodes native atoms rest
  | .form span items :: rest =>
    let v : FormView := ⟨atoms, ⟨span, items⟩, false⟩
    match kindOf atoms items with
    | none => ofNodes native atoms items ++ ofNodes native atoms rest
    | some kind =>
      let slots := fromKey v kind.headerKey (items.drop 1)
      .host kind v.range (nameOf v kind items)
        (slots.head?.toList.flatMap (headerOf native atoms) ++ ofNodes native atoms slots.tail) ::
          ofNodes native atoms rest
termination_by nodes => Node.weights nodes
decreasing_by
  all_goals simp only [Node.weights, Node.weight]
  · omega
  · omega
  · omega
  · have body := Nat.le_trans (weights_tail slots) (weights_fromKey v kind.headerKey _)
    have inside := Nat.le_trans body (ScopeTree.weights_drop 1 items)
    exact Nat.lt_of_le_of_lt inside (by omega)
  · omega

end Outline

structure Numbering where
  host : Nat
  reference : Nat

namespace Numbering

def start : Numbering := ⟨1, 0⟩

def noted (n : Numbering) : Numbering :=
  ⟨n.host, n.reference + 1⟩

def opened (n : Numbering) (name : Option Atom) : Numbering :=
  ⟨n.host + 1, n.reference + name.toList.length⟩

def behind (n : Numbering) : List ScopeEntry → Numbering
  | [] => n
  | .reference _ _ :: rest => n.noted.behind rest
  | .host _ _ name inside :: rest => ((n.opened name).behind inside).behind rest

end Numbering

namespace Outline

def itemsOf (n : Numbering) : List ScopeEntry → List ScopeItem
  | [] => []
  | .reference _ _ :: rest => .reference n.reference :: itemsOf n.noted rest
  | .host _ _ name inside :: rest => .host n.host :: itemsOf ((n.opened name).behind inside) rest

def referencesOf (owner : Nat) (n : Numbering) : List ScopeEntry → List Reference
  | [] => []
  | .reference bound a :: rest =>
    ⟨a.name, a.index, a.range, false, bound, owner⟩ :: referencesOf owner n.noted rest
  | .host _ _ name inside :: rest =>
    name.toList.map (fun a => ⟨a.name, a.index, a.range, true, false, n.host⟩) ++
      referencesOf n.host (n.opened name) inside ++
      referencesOf owner ((n.opened name).behind inside) rest

def hostsOf (parent : Nat) (n : Numbering) : List ScopeEntry → List Host
  | [] => []
  | .reference _ _ :: rest => hostsOf parent n.noted rest
  | .host kind range name inside :: rest =>
    ⟨kind, some parent, (itemsOf (n.opened name) inside).toArray, name.map fun _ => n.reference,
        range⟩ ::
      (hostsOf n.host (n.opened name) inside ++
        hostsOf parent ((n.opened name).behind inside) rest)

end Outline

def ScopeTree.ofOutline (file : String) (range : Range) (entries : List ScopeEntry) :
    ScopeTree where
  file
  hosts := (⟨.root, none, (Outline.itemsOf .start entries).toArray, none, range⟩ ::
    Outline.hostsOf 0 .start entries).toArray
  references := (Outline.referencesOf 0 .start entries).toArray

namespace Outline

theorem head?_eq (v : FormView) (nested : v.isRoot = false) :
    v.head? = headOf v.atoms (v.form.items.drop 1) := by
  rw [FormView.head?, FormView.headPiece?, nested, if_neg Bool.false_ne_true]
  induction v.form.items.drop 1 with
  | nil => rfl
  | cons node rest ih =>
    cases node with
    | form span items => rfl
    | atom index =>
      cases found : v.atoms[index]? with
      | none => simpa [FormView.piece?, headOf, found] using ih
      | some a =>
        have piece : v.piece? (.atom index) = some (.atom a) := by simp [FormView.piece?, found]
        rw [List.filterMap_cons_some piece, headOf, found]
        dsimp only
        by_cases skipped : (a.isComment || a.isLeftParen || a.isQuote) = true
        · rw [List.find?_cons_of_neg (by simp [skipped]), if_pos skipped]
          exact ih
        · rw [List.find?_cons_of_pos (by simpa using skipped), if_neg skipped]

private theorem fromKey_places (v : FormView) (n start : Nat) (nodes : List Node)
    (places : List Nat) (listed : places = (nodes.zipIdx start).filterMap fun (node, place) =>
      if v.isKey node then some place else none) :
    (∃ place, places[n]? = some (start + place) ∧ fromKey v n nodes = nodes.drop place) ∨
      places[n]? = none ∧ fromKey v n nodes = [] := by
  subst listed
  induction nodes generalizing n start with
  | nil => simp [fromKey]
  | cons node rest ih =>
    by_cases key : v.isKey node = true
    · cases n with
      | zero => exact .inl ⟨0, by simp [key], by simp [fromKey, key]⟩
      | succ n =>
        have next := ih n (start + 1)
        rcases next with ⟨place, found, slots⟩ | ⟨missing, slots⟩
        · refine .inl ⟨place + 1, ?_, ?_⟩
          · simpa [key, Nat.add_assoc, Nat.add_comm 1 place] using found
          · simpa [fromKey, key] using slots
        · exact .inr ⟨by simpa [key] using missing, by simpa [fromKey, key] using slots⟩
    · have next := ih n (start + 1)
      have same : fromKey v n (node :: rest) = fromKey v n rest := by
        cases n <;> simp [fromKey, key]
      rw [same]
      rcases next with ⟨place, found, slots⟩ | ⟨missing, slots⟩
      · refine .inl ⟨place + 1, ?_, slots⟩
        simpa [key, Nat.add_assoc, Nat.add_comm 1 place] using found
      · exact .inr ⟨by simpa [key] using missing, slots⟩

private theorem fromKey_eq (v : FormView) (n : Nat) : fromKey v n (v.form.items.drop 1) =
    match v.keyIndex? n with
    | none => []
    | some place => v.form.items.drop place := by
  have behind : v.form.items.zipIdx.drop 1 = (v.form.items.drop 1).zipIdx 1 := by
    cases v.form.items <;> simp
  rcases fromKey_places v n 1 (v.form.items.drop 1) v.keyIndices
    (by rw [FormView.keyIndices, behind]) with ⟨place, found, slots⟩ | ⟨missing, slots⟩
  · rw [FormView.keyIndex?, found, slots, List.drop_drop]
  · rw [FormView.keyIndex?, missing, slots]

theorem key?_eq (v : FormView) (n : Nat) :
    v.key? n = (fromKey v n (v.form.items.drop 1)).head?.bind v.piece? := by
  rw [FormView.key?, fromKey_eq]
  cases v.keyIndex? n with
  | none => rfl
  | some place => rw [List.head?_drop]; rfl

private theorem ofHead?_letter {symbol : String} {kind : HostKind}
    (found : HostKind.ofHead? symbol = some kind) :
    ∃ c more, symbol.toList = c :: more ∧ c.toLower ∈ ['d', 'l', 'f', 'v'] := by
  have spelled (word : String) (d : Char) (others : List Char) (letter : d ∈ ['d', 'l', 'f', 'v'])
      (whole : word.toList.map Char.toLower = d :: others)
      (same : Text.sameName symbol word = true) :
      ∃ c more, symbol.toList = c :: more ∧ c.toLower ∈ ['d', 'l', 'f', 'v'] := by
    rw [Text.sameName, whole, beq_iff_eq] at same
    obtain ⟨c, more, front, rfl, -⟩ := List.map_eq_cons_iff.mp same
    exact ⟨c, more, front, letter⟩
  unfold HostKind.ofHead? at found
  split_ifs at found with defun defunQ lambda foreach vlaxFor
  · exact spelled _ _ _ (by decide) rfl defun
  · exact spelled _ _ _ (by decide) rfl defunQ
  · exact spelled _ _ _ (by decide) rfl lambda
  · exact spelled _ _ _ (by decide) rfl foreach
  · exact spelled _ _ _ (by decide) rfl vlaxFor

private theorem toLower_of_blank {c : Char} (blank : Text.isBlank c = true) : c.toLower = c := by
  have outside : ¬ (65 ≤ c.toNat ∧ c.toNat ≤ 90) := by
    simp only [Text.isBlank, Bool.or_eq_true, Bool.and_eq_true, decide_eq_true_eq,
      beq_iff_eq] at blank
    omega
  unfold Char.toLower
  split
  next capital => exact absurd capital outside
  next => rfl

theorem isKey_of_head {v : FormView} {index : Nat} {a : Atom} {kind : HostKind}
    (found : v.atoms[index]? = some a)
    (plain : ¬ (a.isComment || a.isLeftParen || a.isQuote) = true)
    (localizes : HostKind.ofHead? a.symbol = some kind) : v.isKey (.atom index) = true := by
  obtain ⟨c, more, front, letter⟩ := ofHead?_letter localizes
  have spelled (word : String) (d : Char) (other : d.toLower ∉ ['d', 'l', 'f', 'v'])
      (single : word.toList = [d]) : a.symbol ≠ word := by
    rintro rfl
    rw [single] at front
    obtain ⟨rfl, -⟩ := List.cons.inj front
    exact other letter
  have filled : a.symbol.toList.all Text.isBlank = false := by
    rw [Bool.eq_false_iff]
    intro blank
    rw [front, List.all_cons, Bool.and_eq_true] at blank
    rw [toLower_of_blank blank.1] at letter
    have letters : ['d', 'l', 'f', 'v'].all (!Text.isBlank ·) = true := rfl
    have other := List.all_eq_true.mp letters c letter
    exact absurd blank.1 (by simpa using other)
  have right := spelled ")" ')' (by decide) rfl
  have dot := spelled "." '.' (by decide) rfl
  simp only [Bool.or_eq_true, not_or, Bool.not_eq_true] at plain
  simp [FormView.isKey, found, plain, filled, dot, Atom.isRightParen, right]

/-- The head of a host is the first key of its form. -/
theorem fromKey_head (v : FormView) (nodes : List Node) (a : Atom) (kind : HostKind)
    (head : headOf v.atoms nodes = some a) (localizes : HostKind.ofHead? a.symbol = some kind) :
    ∃ index rest, fromKey v 0 nodes = .atom index :: rest ∧ v.atoms[index]? = some a := by
  induction nodes with
  | nil => cases head
  | cons node rest ih =>
    cases node with
    | form span items => cases head
    | atom index =>
      rw [headOf] at head
      cases found : v.atoms[index]? with
      | none =>
        rw [found] at head
        simpa [fromKey, FormView.isKey, found] using ih head
      | some first =>
        rw [found] at head
        dsimp only at head
        split_ifs at head with skipped
        · have other : v.isKey (.atom index) = false := by
            simp only [Bool.or_eq_true] at skipped
            rcases skipped with (comment | left) | quote <;> simp_all [FormView.isKey]
          simpa [fromKey, other] using ih head
        · obtain rfl := Option.some.inj head
          have key := isKey_of_head found skipped localizes
          exact ⟨index, rest, by simp [fromKey, key], found⟩

theorem ofNodes_cons (native : String → Bool) (atoms : Array Atom) (node : Node)
    (rest : List Node) :
    ofNodes native atoms (node :: rest) =
      ofNodes native atoms [node] ++ ofNodes native atoms rest := by
  cases node with
  | atom index => simp [ofNodes]
  | form span items =>
    rw [ofNodes, ofNodes]
    cases kindOf atoms items <;> simp [ofNodes]

end Outline

section Modify

variable {α : Type} (values others : Array α) (index : Nat) (f g : α → α) (value : α)

private theorem modify_push_of_lt (bound : index < values.size) :
    (values.push value).modify index f = (values.modify index f).push value := by
  apply Array.ext_getElem?
  intro i
  simp only [Array.getElem?_modify, Array.getElem?_push, Array.size_modify]
  split_ifs with here last last
  · omega
  · rfl
  · rfl
  · rfl

private theorem modify_push_last (last : index = values.size) :
    (values.push value).modify index f = values.push (f value) := by
  subst last
  apply Array.ext_getElem?
  intro i
  simp only [Array.getElem?_modify, Array.getElem?_push]
  split_ifs with here last last
  · rfl
  · exact absurd here.symm last
  · exact absurd last.symm here
  · rfl

private theorem modify_append_of_lt (bound : index < values.size) :
    (values ++ others).modify index f = values.modify index f ++ others := by
  apply Array.ext_getElem?
  intro i
  simp only [Array.getElem?_modify, Array.getElem?_append, Array.size_modify]
  split_ifs with here front front
  · rfl
  · omega
  · rfl
  · rfl

private theorem modify_modify :
    (values.modify index f).modify index g = values.modify index (g ∘ f) := by
  apply Array.ext_getElem?
  intro i
  simp only [Array.getElem?_modify]
  split_ifs
  · rw [Option.map_map]
  · rfl

private theorem modify_id : values.modify index id = values := by
  apply Array.ext_getElem?
  intro i
  rw [Array.getElem?_modify, Option.map_id]
  exact ite_self _

end Modify

def Host.hold (items : List ScopeItem) (h : Host) : Host :=
  { h with items := h.items ++ items.toArray }

private theorem Host.hold_comp (first second : List ScopeItem) :
    Host.hold second ∘ Host.hold first = Host.hold (first ++ second) := by
  funext h
  simp [hold]

theorem Host.hold_nil : Host.hold [] = id := by
  funext h
  simp [hold]

namespace ScopeTree

open Outline

def numbering (t : ScopeTree) : Numbering :=
  ⟨t.hosts.size, t.references.size⟩

def enter (t : ScopeTree) (parent : Nat) (kind : HostKind) (range : Range) (name : Option Atom) :
    ScopeTree :=
  { t with
    hosts := (t.hosts.modify parent (Host.hold [.host t.hosts.size])).push
      ⟨kind, some parent, #[], name.map fun _ => t.references.size, range⟩
    references := t.references ++ (name.toList.map fun a =>
      ⟨a.name, a.index, a.range, true, false, t.hosts.size⟩).toArray }

def roleOf (bound : Bool) : Role :=
  if bound then .bound else .plain

def grow (t : ScopeTree) (host : Nat) : List ScopeEntry → ScopeTree
  | [] => t
  | .reference bound a :: rest => (t.addReference host (roleOf bound) a).grow host rest
  | .host kind range name inside :: rest =>
    ((t.enter host kind range name).grow t.hosts.size inside).grow host rest

theorem addReference_eq (t : ScopeTree) (host : Nat) (bound : Bool) (a : Atom) :
    t.addReference host (roleOf bound) a =
      { t with
        hosts := t.hosts.modify host (Host.hold [.reference t.references.size])
        references := t.references.push ⟨a.name, a.index, a.range, false, bound, host⟩ } := by
  cases bound <;> rfl

private theorem addReference_numbering (t : ScopeTree) (host : Nat) (role : Role) (a : Atom) :
    (t.addReference host role a).numbering = t.numbering.noted := by
  simp [addReference, addItem, pushReference, numbering, Numbering.noted]

private theorem enter_numbering (t : ScopeTree) (parent : Nat) (kind : HostKind) (range : Range)
    (name : Option Atom) :
    (t.enter parent kind range name).numbering = t.numbering.opened name := by
  simp [enter, numbering, Numbering.opened]

theorem enter_size (t : ScopeTree) (parent : Nat) (kind : HostKind) (range : Range)
    (name : Option Atom) : (t.enter parent kind range name).hosts.size = t.hosts.size + 1 := by
  rw [enter, Array.size_push, Array.size_modify]

private theorem grow_numbering (t : ScopeTree) (host : Nat) (entries : List ScopeEntry) :
    (t.grow host entries).numbering = t.numbering.behind entries := by
  fun_induction grow t host entries with
  | case1 => rw [Numbering.behind]
  | case2 t host bound a rest ih => rw [ih, addReference_numbering, Numbering.behind]
  | case3 t host kind range name inside rest within ih =>
    rw [ih, within, enter_numbering, Numbering.behind]

theorem grow_append (t : ScopeTree) (host : Nat) (first second : List ScopeEntry) :
    t.grow host (first ++ second) = (t.grow host first).grow host second := by
  fun_induction grow t host first with
  | case1 => rfl
  | case2 t host bound a rest ih => rw [List.cons_append, grow, ih]
  | case3 t host kind range name inside rest within ih => rw [List.cons_append, grow, ih]

private theorem grow_references (t : ScopeTree) (host : Nat) (entries : List ScopeEntry) :
    (t.grow host entries).references =
      t.references ++ (referencesOf host t.numbering entries).toArray := by
  fun_induction grow t host entries with
  | case1 => simp [referencesOf]
  | case2 t host bound a rest ih =>
    rw [ih, addReference_numbering, addReference_eq, referencesOf]
    simp
  | case3 t host kind range name inside rest within ih =>
    rw [ih, within, grow_numbering, enter_numbering, referencesOf]
    simp [enter, numbering]

private theorem enter_hold (t : ScopeTree) (parent : Nat) (kind : HostKind) (range : Range)
    (name : Option Atom) (items : List ScopeItem) :
    (t.enter parent kind range name).hosts.modify t.hosts.size (Host.hold items) =
      (t.hosts.modify parent (Host.hold [.host t.hosts.size])).push
        ⟨kind, some parent, items.toArray, name.map fun _ => t.references.size, range⟩ := by
  rw [enter, modify_push_last _ _ _ _ (by rw [Array.size_modify])]
  simp [Host.hold]

theorem grow_hosts (t : ScopeTree) (host : Nat) (entries : List ScopeEntry)
    (bound : host < t.hosts.size) :
    (t.grow host entries).hosts = t.hosts.modify host (Host.hold (itemsOf t.numbering entries)) ++
      (hostsOf host t.numbering entries).toArray := by
  fun_induction grow t host entries with
  | case1 => simp [itemsOf, hostsOf, Host.hold_nil, modify_id]
  | case2 t host bound a rest ih =>
    rw [ih, addReference_numbering, addReference_eq, itemsOf, hostsOf]
    · simp only [modify_modify, Host.hold_comp]
      rfl
    · simpa [addReference_eq] using bound
  | case3 t host kind range name inside rest within ih =>
    have hosts := within (by rw [enter_size]; exact Nat.lt_succ_self _)
    rw [enter_numbering, enter_hold] at hosts
    have earlier : host < (t.hosts.modify host (Host.hold [.host t.hosts.size])).size := by
      rwa [Array.size_modify]
    rw [ih, hosts, grow_numbering, enter_numbering, itemsOf, hostsOf]
    · rw [modify_append_of_lt _ _ _ _ (by rw [Array.size_push]; omega),
        modify_push_of_lt _ _ _ _ earlier, modify_modify, Host.hold_comp]
      simp [numbering]
    · rw [hosts, Array.size_append, Array.size_push]
      omega

private theorem grow_file (t : ScopeTree) (host : Nat) (entries : List ScopeEntry) :
    (t.grow host entries).file = t.file := by
  fun_induction grow t host entries with
  | case1 => rfl
  | case2 t host bound a rest ih => rw [ih, addReference_eq]
  | case3 t host kind range name inside rest within ih => rw [ih, within, enter]

theorem le_grow (t : ScopeTree) (host : Nat) (entries : List ScopeEntry)
    (bound : host < t.hosts.size) :
    t.hosts.size ≤ (t.grow host entries).hosts.size := by
  rw [grow_hosts t host entries bound, Array.size_append, Array.size_modify]
  exact Nat.le_add_right _ _

variable (native : String → Bool) (atoms : Array Atom)

private theorem grow_noted (t : ScopeTree) (host : Nat) (bound : Bool) (node : Node) :
    t.grow host (noted native atoms bound node) =
      ((atomOf atoms node).toList.foldl (note native host (roleOf bound)) t) := by
  rw [noted]
  cases atomOf atoms node with
  | none => simp [grow]
  | some a =>
    by_cases tracked : a.isTracked native = true <;> simp [grow, note, tracked]

private theorem bindHeader_eq (v : FormView) (t : ScopeTree) (host : Nat) (node : Node) :
    bindHeader native t host (v.piece? node) = t.grow host (headerOf native v.atoms node) := by
  cases node with
  | atom index =>
    rw [headerOf, grow_noted]
    change bindHeader native t host (v.atoms[index]?.map .atom) =
      v.atoms[index]?.toList.foldl _ t
    cases v.atoms[index]? <;> rfl
  | form span items =>
    change (items.filterMap (atomOf v.atoms)).foldl (note native host .bound) t = _
    rw [headerOf]
    induction items generalizing t with
    | nil => simp [grow]
    | cons node rest ih =>
      rw [List.flatMap_cons, grow_append, ← ih, grow_noted]
      cases found : atomOf v.atoms node with
      | none => simp [found]
      | some a => simp [found, roleOf]

private theorem addHost_eq (t : ScopeTree) (parent : Nat) (kind : HostKind) (range : Range)
    (bound : parent < t.hosts.size) :
    t.addHost parent kind range = t.enter parent kind range none := by
  change ScopeTree.mk t.file ((t.hosts.push _).modify parent (Host.hold [_])) t.references = _
  rw [modify_push_of_lt _ _ _ _ bound]
  simp [enter]

private theorem nameHost_eq (t : ScopeTree) (parent : Nat) (kind : HostKind) (range : Range)
    (v : FormView) :
    (t.enter parent kind range none).nameHost t.hosts.size v = t.enter parent kind range
      ((fromKey v 1 (v.form.items.drop 1)).head?.bind (atomOf v.atoms)) := by
  rw [nameHost, key?_eq]
  cases (fromKey v 1 (v.form.items.drop 1)).head? with
  | none => rfl
  | some node =>
    cases node with
    | form span items => rfl
    | atom index =>
      simp only [Option.bind_some, FormView.piece?, atomOf, Node.index?]
      cases v.atoms[index]? with
      | none => rfl
      | some a =>
        simp only [Option.map_some, enter, pushReference]
        rw [modify_push_last _ _ _ _ (by rw [Array.size_modify])]
        simp

private theorem enter_eq (t : ScopeTree) (parent : Nat) (kind : HostKind) (v : FormView)
    (bound : parent < t.hosts.size) :
    (if kind.isNamed then (t.addHost parent kind v.range).nameHost t.hosts.size v
      else t.addHost parent kind v.range) =
      t.enter parent kind v.range (nameOf v kind v.form.items) := by
  rw [addHost_eq t parent kind v.range bound, nameHost_eq, nameOf]
  split <;> rfl

private theorem openHost_eq (t : ScopeTree) (parent : Nat) (kind : HostKind) (v : FormView)
    (bound : parent < t.hosts.size) :
    (t.openHost native parent kind v).1 =
      (t.enter parent kind v.range (nameOf v kind v.form.items)).grow t.hosts.size
        ((fromKey v kind.headerKey (v.form.items.drop 1)).head?.toList.flatMap
          (headerOf native v.atoms)) ∧
    v.form.items.drop (t.openHost native parent kind v).2 =
      (fromKey v kind.headerKey (v.form.items.drop 1)).tail := by
  rw [openHost, fromKey_eq, enter_eq t parent kind v bound]
  cases v.keyIndex? kind.headerKey with
  | none => simp [grow]
  | some place =>
    simp only [List.head?_drop, List.tail_drop, and_true]
    rw [FormView.item?]
    cases v.form.items[place]? with
    | none => simp [grow, bindHeader]
    | some node => simp [bindHeader_eq]

private theorem grow_inHost (t : ScopeTree) (host : Nat) (nodes : List Node) :
    (inHost host nodes).foldl (fun t p => t.grow p.1 (ofNodes native atoms [p.2])) t =
      t.grow host (ofNodes native atoms nodes) := by
  induction nodes generalizing t with
  | nil => simp [inHost, ofNodes, grow]
  | cons node rest ih =>
    rw [ofNodes_cons, grow_append, ← ih]
    rfl

theorem kindOf_eq (span : Span) (items : List Node) :
    ((FormView.mk atoms ⟨span, items⟩ false).head?.bind fun head => HostKind.ofHead? head.symbol) =
      kindOf atoms items := by
  rw [head?_eq _ rfl]
  rfl

private theorem grow_form (t : ScopeTree) (host : Nat) (span : Span) (items : List Node)
    (plain : kindOf atoms items = none) :
    t.grow host (ofNodes native atoms [.form span items]) =
      t.grow host (ofNodes native atoms items) := by
  simp [ofNodes, plain]

private theorem grow_localizer (t : ScopeTree) (host : Nat) (span : Span) (items : List Node)
    (kind : HostKind) (localizes : kindOf atoms items = some kind) (bound : host < t.hosts.size) :
    t.grow host (ofNodes native atoms [.form span items]) =
      (t.openHost native host kind ⟨atoms, ⟨span, items⟩, false⟩).1.grow t.hosts.size
        (ofNodes native atoms
          (items.drop (t.openHost native host kind ⟨atoms, ⟨span, items⟩, false⟩).2)) := by
  obtain ⟨opened, body⟩ := openHost_eq native t host kind ⟨atoms, ⟨span, items⟩, false⟩ bound
  rw [opened, body, ← grow_append]
  simp [ofNodes, localizes, grow]

theorem walk_eq_grow (t : ScopeTree) (todo : List (Nat × Node))
    (hosted : ∀ p ∈ todo, p.1 < t.hosts.size) :
    walk native atoms t todo =
      todo.foldl (fun t p => t.grow p.1 (ofNodes native atoms [p.2])) t := by
  fun_induction walk native atoms t todo with
  | case1 t => rfl
  | case2 t host index rest a found ih =>
    have tracked :
        t.grow host (ofNodes native atoms [.atom index]) = note native host .plain t a := by
      simp [ofNodes, grow_noted, atomOf, Node.index?, found, roleOf]
    rw [List.foldl_cons, tracked, ih]
    intro p member
    have inside := hosted p (List.mem_cons_of_mem _ member)
    rw [← tracked]
    exact Nat.lt_of_lt_of_le inside (le_grow t host _ (hosted _ (List.mem_cons_self ..)))
  | case3 t host index rest missing ih =>
    rw [List.foldl_cons, ih fun p member => hosted p (List.mem_cons_of_mem _ member)]
    simp [ofNodes, grow_noted, atomOf, Node.index?, missing]
  | case4 t host span items rest v plain ih =>
    rw [kindOf_eq] at plain
    rw [List.foldl_cons, grow_form native atoms t host span items plain, ← grow_inHost,
      ← List.foldl_append]
    have bound : host < t.hosts.size := hosted _ (List.mem_cons_self ..)
    apply ih
    intro p member
    rcases List.mem_append.mp member with inner | later
    · obtain ⟨node, -, rfl⟩ := List.mem_map.mp inner
      exact bound
    · exact hosted p (List.mem_cons_of_mem _ later)
  | case5 t host span items rest v kind localizes inner opened ih =>
    rw [kindOf_eq] at localizes
    have bound : host < t.hosts.size := hosted _ (List.mem_cons_self ..)
    rw [List.foldl_cons, grow_localizer native atoms t host span items kind localizes bound,
      ← grow_inHost, ← List.foldl_append]
    have larger : t.hosts.size < opened.1.hosts.size := by
      rw [(openHost_eq native t host kind v bound).1]
      have entered := enter_size t host kind v.range (nameOf v kind v.form.items)
      have last := Nat.lt_of_lt_of_eq (Nat.lt_succ_self _) entered.symm
      exact Nat.lt_of_lt_of_le last (le_grow _ _ _ last)
    apply ih
    intro p member
    rcases List.mem_append.mp member with body | later
    · obtain ⟨node, -, rfl⟩ := List.mem_map.mp body
      exact larger
    · exact Nat.lt_trans (hosted p (List.mem_cons_of_mem _ later)) larger

def bare (file : String) (range : Range) : ScopeTree :=
  ⟨file, #[⟨.root, none, #[], none, range⟩], #[]⟩

theorem build_eq_grow (file : String) (d : Document) : build native file d =
    (bare file d.view.range).grow 0 (ofNodes native d.atoms d.root.items) := by
  rw [build, walk_eq_grow, grow_inHost]
  · rfl
  · intro p member
    obtain ⟨node, -, rfl⟩ := List.mem_map.mp member
    exact Nat.zero_lt_one

theorem bare_grow (file : String) (range : Range) (entries : List ScopeEntry) :
    (bare file range).grow 0 entries = .ofOutline file range entries := by
  have references := grow_references (bare file range) 0 entries
  have hosts := grow_hosts (bare file range) 0 entries Nat.zero_lt_one
  calc (bare file range).grow 0 entries
    _ = ⟨((bare file range).grow 0 entries).file, ((bare file range).grow 0 entries).hosts,
          ((bare file range).grow 0 entries).references⟩ := rfl
    _ = .ofOutline file range entries := by
      rw [grow_file, hosts, references, ofOutline]
      simp [bare, numbering, Numbering.start, Host.hold]

end ScopeTree

/-- The walk builds the scopes that recursive descent gives: those of the outline of the document,
with hosts and references numbered as they stand in it. The head of a host is its first key, so that
the name and the header are the keys behind it. -/
theorem build_outlined (native : String → Bool) (file : String) (d : Document) :
    ScopeTree.build native file d =
        .ofOutline file d.view.range (Outline.ofNodes native d.atoms d.root.items) ∧
      ∀ span items kind, Outline.kindOf d.atoms items = some kind → ∃ index rest head,
        Outline.fromKey ⟨d.atoms, ⟨span, items⟩, false⟩ 0 (items.drop 1) = .atom index :: rest ∧
          d.atoms[index]? = some head ∧ HostKind.ofHead? head.symbol = some kind := by
  constructor
  · rw [ScopeTree.build_eq_grow, ScopeTree.bare_grow]
  · intro span items kind localizes
    obtain ⟨head, found, named⟩ := Option.bind_eq_some_iff.mp localizes
    obtain ⟨index, rest, slots, here⟩ :=
      Outline.fromKey_head ⟨d.atoms, ⟨span, items⟩, false⟩ _ head kind found named
    exact ⟨index, rest, head, slots, here, named⟩

end LispIndex
