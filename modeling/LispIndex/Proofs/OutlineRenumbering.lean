import LispIndex.Proofs.Occurrences
import LispIndex.Proofs.Renumbering

/-!
Outlines under a renumbering. Where it leaves out comments and nothing else, the outline has the
same hosts and occurrences as before. Only the ranges of hosts may differ, since a comment may be
the last atom of a form.
-/

namespace LispIndex

def Atom.renumber (r : Renumbering) (a : Atom) : Atom :=
  { a with index := r.number a.index }

def Reference.renumber (r : Renumbering) (reference : Reference) : Reference :=
  { reference with index := r.number reference.index }

def Host.unplaced (h : Host) : Host :=
  { h with range := .empty }

namespace ScopeTree

def renumber (r : Renumbering) (t : ScopeTree) : ScopeTree :=
  { t with references := t.references.map (Reference.renumber r) }

def unplaced (t : ScopeTree) : ScopeTree :=
  { t with hosts := t.hosts.map Host.unplaced }

end ScopeTree

/-- The atoms `others` are the renumbered ones of `atoms`, where nothing but comments is left out. -/
structure Renumbering.Keeps (r : Renumbering) (atoms others : Array Atom) : Prop where
  dropped : ∀ i, r.drops i = true → ∃ a, atoms[i]? = some a ∧ a.isComment = true
  kept : ∀ i, r.drops i = false → others[r.number i]? = atoms[i]?.map (Atom.renumber r)

namespace Outline

/-- Outlines of the same hosts and occurrences, up to the numbers of atoms and the ranges of
hosts. -/
inductive Alike (r : Renumbering) : List ScopeEntry → List ScopeEntry → Prop
  | nil : Alike r [] []
  | reference (bound : Bool) (a : Atom) (rest others : List ScopeEntry)
      (later : Alike r rest others) :
      Alike r (.reference bound a :: rest) (.reference bound (a.renumber r) :: others)
  | host (kind : HostKind) (range place : Range) (name : Option Atom)
      (inside within rest others : List ScopeEntry) (inner : Alike r inside within)
      (later : Alike r rest others) :
      Alike r (.host kind range name inside :: rest)
        (.host kind place (name.map (Atom.renumber r)) within :: others)

namespace Alike

variable {r : Renumbering} {entries others more behind : List ScopeEntry}

theorem append (first : Alike r entries others) (second : Alike r more behind) :
    Alike r (entries ++ more) (others ++ behind) := by
  induction first with
  | nil => exact second
  | reference bound a rest others later ih => exact .reference bound a _ _ ih
  | host kind range place name inside within rest others inner later _ ih =>
    exact .host kind range place name inside within _ _ inner ih

private theorem opened (n : Numbering) (name : Option Atom) (f : Atom → Atom) :
    n.opened (name.map f) = n.opened name := by
  cases name <;> rfl

private theorem behind_eq (alike : Alike r entries others) (n : Numbering) :
    n.behind others = n.behind entries := by
  induction alike generalizing n with
  | nil => rfl
  | reference bound a rest others later ih => rw [Numbering.behind, Numbering.behind, ih]
  | host kind range place name inside within rest others inner later deeper ih =>
    rw [Numbering.behind, Numbering.behind, opened, deeper, ih]

private theorem itemsOf_eq (alike : Alike r entries others) (n : Numbering) :
    itemsOf n others = itemsOf n entries := by
  induction alike generalizing n with
  | nil => rfl
  | reference bound a rest others later ih => rw [itemsOf, itemsOf, ih]
  | host kind range place name inside within rest others inner later deeper ih =>
    rw [itemsOf, itemsOf, opened, inner.behind_eq, ih]

private theorem referencesOf_eq (alike : Alike r entries others) (owner : Nat) (n : Numbering) :
    referencesOf owner n others = (referencesOf owner n entries).map (Reference.renumber r) := by
  induction alike generalizing owner n with
  | nil => simp [referencesOf]
  | reference bound a rest others later ih =>
    rw [referencesOf, referencesOf, ih, List.map_cons]
    rfl
  | host kind range place name inside within rest others inner later deeper ih =>
    rw [referencesOf, referencesOf, opened, inner.behind_eq, deeper, ih, List.map_append,
      List.map_append]
    cases name <;> rfl

private theorem hostsOf_eq (alike : Alike r entries others) (parent : Nat) (n : Numbering) :
    (hostsOf parent n others).map Host.unplaced = (hostsOf parent n entries).map Host.unplaced := by
  induction alike generalizing parent n with
  | nil => simp [hostsOf]
  | reference bound a rest others later ih => rw [hostsOf, hostsOf, ih]
  | host kind range place name inside within rest others inner later deeper ih =>
    rw [hostsOf, hostsOf, opened, inner.behind_eq, inner.itemsOf_eq, List.map_cons, List.map_cons,
      List.map_append, List.map_append, deeper, ih, Option.map_map]
    rfl

private theorem ofOutline_eq (alike : Alike r entries others) (file : String)
    (range place : Range) :
    (ScopeTree.ofOutline file place others).unplaced =
      ((ScopeTree.ofOutline file range entries).renumber r).unplaced := by
  have hosts := alike.hostsOf_eq 0 .start
  have references := alike.referencesOf_eq 0 .start
  simp only [ScopeTree.ofOutline, ScopeTree.unplaced, ScopeTree.renumber, List.map_toArray,
    List.map_cons, hosts, references, alike.itemsOf_eq]
  rfl

end Alike

end Outline

theorem Atom.isTracked_comment {a : Atom} (comment : a.isComment = true) (native : String → Bool) :
    a.isTracked native = false := by
  cases spelled : a.symbol.toList with
  | nil => simp [isComment, spelled] at comment
  | cons c more =>
    obtain rfl : ';' = c := by simpa [isComment, spelled] using comment
    rw [isTracked, isPrimitive_of_glyph spelled rfl]
    rfl

private theorem Outline.isKey_of_fromKey {v : FormView} {n : Nat} {nodes rest : List Node}
    {node : Node} (front : fromKey v n nodes = node :: rest) : v.isKey node = true := by
  fun_induction fromKey v n nodes with
  | case1 => cases front
  | case2 first more key =>
    obtain ⟨rfl, -⟩ := List.cons.inj front
    exact key
  | case3 first more _ ih => exact ih front
  | case4 n first more ih => exact ih front

def Renumbering.Starts (r : Renumbering) (items : List Node) : Prop :=
  ∃ i rest, items = .atom i :: rest ∧ r.drops i = false

def Renumbering.Opens (r : Renumbering) (nodes : List Node) : Prop :=
  ∀ f ∈ Node.formsOf nodes, r.Starts f.items

private theorem Renumbering.renumber_drop {r : Renumbering} {items : List Node}
    (starts : r.Starts items) :
    (Node.renumber r items).drop 1 = Node.renumber r (items.drop 1) := by
  obtain ⟨i, rest, rfl, kept⟩ := starts
  rw [Node.renumber_kept kept]
  rfl

namespace Renumbering.Keeps

open Outline

section Nodes

variable {r : Renumbering} {atoms others : Array Atom} {node other : Node}
  (keeps : r.Keeps atoms others)

include keeps

private theorem atomOf_eq (stays : node.renumber? r = some other) :
    atomOf others other = (atomOf atoms node).map (Atom.renumber r) := by
  cases node with
  | form span items =>
    obtain rfl := Option.some.inj stays
    rfl
  | atom index =>
    rw [Node.renumber?] at stays
    split at stays
    next => cases stays
    next kept =>
      obtain rfl := Option.some.inj stays
      exact keeps.kept index (Bool.eq_false_iff.mpr kept)

private theorem comment_of_none (gone : node.renumber? r = none) :
    ∃ a, atomOf atoms node = some a ∧ a.isComment = true := by
  cases node with
  | form span items => cases gone
  | atom index =>
    rw [Node.renumber?] at gone
    split at gone
    next dropped => exact keeps.dropped index dropped
    next => cases gone

private theorem headOf_eq (nodes : List Node) :
    headOf others (Node.renumber r nodes) = (headOf atoms nodes).map (Atom.renumber r) := by
  induction nodes with
  | nil => rfl
  | cons node rest ih =>
    cases node with
    | form span items => rfl
    | atom index =>
      cases drops : r.drops index with
      | true =>
        obtain ⟨a, found, comment⟩ := keeps.dropped index drops
        rw [Node.renumber_dropped drops, ih, headOf, found]
        simp [comment]
      | false =>
        rw [Node.renumber_kept drops, headOf, headOf, keeps.kept index drops]
        cases atoms[index]? with
        | none => exact ih
        | some a =>
          change (if (a.isComment || a.isLeftParen || a.isQuote) = true then _ else _) =
            Option.map _ (if (a.isComment || a.isLeftParen || a.isQuote) = true then _ else _)
          rw [ih]
          split <;> rfl

private theorem kindOf_eq {items : List Node} (starts : r.Starts items) :
    kindOf others (Node.renumber r items) = kindOf atoms items := by
  rw [kindOf, renumber_drop starts, keeps.headOf_eq, Option.bind_map]
  rfl

variable (native : String → Bool) (bound : Bool)

private theorem noted_of_none (gone : node.renumber? r = none) :
    noted native atoms bound node = [] := by
  obtain ⟨a, found, comment⟩ := keeps.comment_of_none gone
  rw [noted, found]
  simp [Atom.isTracked_comment comment]

private theorem noted_alike (stays : node.renumber? r = some other) :
    Alike r (noted native atoms bound node) (noted native others bound other) := by
  rw [noted, noted, keeps.atomOf_eq stays]
  cases atomOf atoms node with
  | none => exact .nil
  | some a =>
    have same : (a.renumber r).isTracked native = a.isTracked native := rfl
    cases tracked : a.isTracked native with
    | false => simpa [tracked, same] using Alike.nil
    | true => simpa [tracked, same] using Alike.reference bound a [] [] .nil

private theorem list_alike (nodes : List Node) :
    Alike r (nodes.flatMap (noted native atoms bound))
      ((Node.renumber r nodes).flatMap (noted native others bound)) := by
  induction nodes with
  | nil => exact .nil
  | cons node rest ih =>
    rw [List.flatMap_cons]
    cases stays : node.renumber? r with
    | none => rwa [Node.renumber_none stays, keeps.noted_of_none native bound stays]
    | some other =>
      rw [Node.renumber_some stays, List.flatMap_cons]
      exact (keeps.noted_alike native bound stays).append ih

private theorem header_alike (stays : node.renumber? r = some other) :
    Alike r (headerOf native atoms node) (headerOf native others other) := by
  cases node with
  | form span items =>
    obtain rfl := Option.some.inj stays
    exact keeps.list_alike native true items
  | atom index =>
    have noted := keeps.noted_alike native true stays
    cases other with
    | atom place => exact noted
    | form span items =>
      rw [Node.renumber?] at stays
      split at stays <;> cases stays

end Nodes

section Keys

variable {r : Renumbering} {v w : FormView} {node other : Node} (keeps : r.Keeps v.atoms w.atoms)

include keeps

private theorem isKey_of_none (gone : node.renumber? r = none) : v.isKey node = false := by
  obtain ⟨a, found, comment⟩ := keeps.comment_of_none gone
  cases node with
  | form span items => cases gone
  | atom index =>
    have here : v.atoms[index]? = some a := found
    rw [FormView.isKey, here]
    simp [comment]

private theorem isKey_eq (stays : node.renumber? r = some other) :
    w.isKey other = v.isKey node := by
  cases node with
  | form span items =>
    obtain rfl := Option.some.inj stays
    rfl
  | atom index =>
    have atom := keeps.atomOf_eq stays
    rw [Node.renumber?] at stays
    split at stays
    next => cases stays
    next =>
      obtain rfl := Option.some.inj stays
      change w.atoms[r.number index]? = v.atoms[index]?.map (Atom.renumber r) at atom
      rw [FormView.isKey, FormView.isKey, atom, Option.any_map]
      rfl

private theorem fromKey_eq (n : Nat) (nodes : List Node) :
    fromKey w n (Node.renumber r nodes) = Node.renumber r (fromKey v n nodes) := by
  induction nodes generalizing n with
  | nil => cases n <;> rfl
  | cons node rest ih =>
    cases stays : node.renumber? r with
    | none =>
      have other := keeps.isKey_of_none stays
      rw [Node.renumber_none stays, ih]
      cases n <;> simp [fromKey, other]
    | some other =>
      have key := keeps.isKey_eq stays
      rw [Node.renumber_some stays]
      cases n with
      | zero =>
        rw [fromKey, fromKey, key, ih]
        split
        next => rw [Node.renumber_some stays]
        next => rfl
      | succ n => rw [fromKey, fromKey, key, ih]

private theorem exists_key {n : Nat} {nodes rest : List Node}
    (front : fromKey v n nodes = node :: rest) :
    ∃ other, node.renumber? r = some other := by
  cases stays : node.renumber? r with
  | some other => exact ⟨other, rfl⟩
  | none =>
    have key := isKey_of_fromKey front
    rw [keeps.isKey_of_none stays] at key
    cases key

private theorem nameOf_eq (kind : HostKind) {items : List Node} (starts : r.Starts items) :
    nameOf w kind (Node.renumber r items) = (nameOf v kind items).map (Atom.renumber r) := by
  rw [nameOf, nameOf, renumber_drop starts, keeps.fromKey_eq]
  split
  next =>
    cases front : fromKey v 1 (items.drop 1) with
    | nil => rfl
    | cons node more =>
      obtain ⟨other, stays⟩ := keeps.exists_key front
      rw [Node.renumber_some stays]
      exact keeps.atomOf_eq stays
  next => rfl

private theorem slots_alike (native : String → Bool) {n : Nat} {nodes : List Node}
    (body : Alike r (ofNodes native v.atoms (fromKey v n nodes).tail)
      (ofNodes native w.atoms (Node.renumber r (fromKey v n nodes).tail))) :
    Alike r
      ((fromKey v n nodes).head?.toList.flatMap (headerOf native v.atoms) ++
        ofNodes native v.atoms (fromKey v n nodes).tail)
      ((fromKey w n (Node.renumber r nodes)).head?.toList.flatMap (headerOf native w.atoms) ++
        ofNodes native w.atoms (fromKey w n (Node.renumber r nodes)).tail) := by
  rw [keeps.fromKey_eq]
  cases front : fromKey v n nodes with
  | nil => simpa [Node.renumber, ofNodes] using Alike.nil
  | cons node more =>
    obtain ⟨other, stays⟩ := keeps.exists_key front
    rw [front] at body
    rw [Node.renumber_some stays]
    simpa using (keeps.header_alike native stays).append body

end Keys

variable {r : Renumbering} {atoms others : Array Atom}

private theorem ofNodes_alike (keeps : r.Keeps atoms others) (native : String → Bool)
    (nodes : List Node) (opens : r.Opens nodes) :
    Alike r (ofNodes native atoms nodes) (ofNodes native others (Node.renumber r nodes)) := by
  -- Comments are neither tracked nor keys, and the first item that a form steps over is none, so
  -- every part of the outline is taken from the same items as before.
  fun_induction ofNodes native atoms nodes with
  | case1 => simpa [Node.renumber, ofNodes] using Alike.nil
  | case2 index rest ih =>
    have later := ih opens
    cases drops : r.drops index with
    | true =>
      have gone : (Node.atom index).renumber? r = none := by rw [Node.renumber?, if_pos drops]
      rwa [Node.renumber_none gone, keeps.noted_of_none native false gone]
    | false =>
      have stays : (Node.atom index).renumber? r = some (.atom (r.number index)) := by
        rw [Node.renumber?, drops, if_neg Bool.false_ne_true]
      rw [Node.renumber_some stays, ofNodes]
      exact (keeps.noted_alike native false stays).append later
  | case3 span items rest plain inner ih =>
    have first := opens ⟨span, items⟩ (List.mem_append_left _ List.mem_cons_self)
    have within := inner fun f nested =>
      opens f (List.mem_append_left _ (List.mem_cons_of_mem _ nested))
    have later := ih fun f nested => opens f (List.mem_append_right _ nested)
    rw [Node.renumber_form, ofNodes, keeps.kindOf_eq first, plain]
    exact within.append later
  | case4 span items rest v kind localizes slots =>
    rename_i inner ih
    have first := opens ⟨span, items⟩ (List.mem_append_left _ List.mem_cons_self)
    have body := inner fun f nested => opens f (List.mem_append_left _
      (List.mem_cons_of_mem _ (Node.formsOf_suffix (body_suffix v _ items) nested)))
    have later := ih fun f nested => opens f (List.mem_append_right _ nested)
    have views : r.Keeps v.atoms (FormView.mk others
        ⟨⟨r.number span.first, r.number span.stop⟩, Node.renumber r items⟩ false).atoms := keeps
    have inside := views.slots_alike native body
    rw [← renumber_drop first] at inside
    rw [Node.renumber_form, ofNodes, keeps.kindOf_eq first, localizes]
    dsimp only
    rw [views.nameOf_eq kind first]
    exact .host kind v.range _ (nameOf v kind items) _ _ _ _ inside later

/-- Leaving out comments changes no scope but for the ranges of hosts. -/
theorem build_unplaced {d e : Document} (keeps : r.Keeps d.atoms e.atoms)
    (items : e.root.items = Node.renumber r d.root.items) (opens : r.Opens d.root.items)
    (native : String → Bool) (file : String) :
    (ScopeTree.build native file e).unplaced =
      ((ScopeTree.build native file d).renumber r).unplaced := by
  rw [ScopeTree.build_eq_ofOutline, ScopeTree.build_eq_ofOutline, items]
  exact (keeps.ofNodes_alike native d.root.items opens).ofOutline_eq file _ _

end Renumbering.Keeps

end LispIndex
