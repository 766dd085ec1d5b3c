import LispIndex.Proofs.FormShape
import LispIndex.Proofs.OutlineOrder
import LispIndex.Proofs.Spacing

/-!
Where the entries of an outline come from: every reference from an atom of the document and every
host from a form that starts with the name of its kind.
-/

namespace LispIndex

theorem ScopeTree.build_eq_ofOutline (native : String → Bool) (file : String) (d : Document) :
    build native file d =
      .ofOutline file d.view.range (Outline.ofNodes native d.atoms d.root.items) :=
  (build_eq_grow native file d).trans (bare_grow file d.view.range _)

namespace Outline

def mentions : List ScopeEntry → List (Role × Atom)
  | [] => []
  | .reference bound a :: rest => (ScopeTree.roleOf bound, a) :: mentions rest
  | .host _ _ name inside :: rest =>
    name.toList.map (Role.name, ·) ++ mentions inside ++ mentions rest

theorem mentions_append (left right : List ScopeEntry) :
    mentions (left ++ right) = mentions left ++ mentions right := by
  induction left with
  | nil => simp [mentions]
  | cons entry rest ih => cases entry <;> simp [mentions, ih]

end Outline

namespace Numbering

@[simp] theorem noted_host (n : Numbering) : n.noted.host = n.host := rfl

@[simp] theorem noted_reference (n : Numbering) : n.noted.reference = n.reference + 1 := rfl

@[simp] theorem opened_host (n : Numbering) (name : Option Atom) :
    (n.opened name).host = n.host + 1 := rfl

@[simp] theorem opened_reference (n : Numbering) (name : Option Atom) :
    (n.opened name).reference = n.reference + name.toList.length := rfl

theorem behind_reference (n : Numbering) (entries : List ScopeEntry) :
    (n.behind entries).reference = n.reference + (Outline.mentions entries).length := by
  fun_induction n.behind entries with
  | case1 n => simp [Outline.mentions]
  | case2 n bound a rest ih =>
    rw [ih, Outline.mentions, List.length_cons, noted_reference]
    omega
  | case3 n kind range name inside rest within later =>
    simp [later, within, Outline.mentions, Nat.add_assoc]

theorem behind_host (parent : Nat) (n : Numbering) (entries : List ScopeEntry) :
    (n.behind entries).host = n.host + (Outline.hostsOf parent n entries).length := by
  fun_induction Outline.hostsOf parent n entries with
  | case1 => simp [behind]
  | case2 parent n bound a rest ih => simp [behind, ih]
  | case3 parent n kind range name inside rest within later =>
    simp only [behind, later, within, opened_host, List.length_cons, List.length_append]
    omega

end Numbering

namespace Outline

def referenceFor (owner : Nat) (mention : Role × Atom) : Reference :=
  ⟨mention.2.name, mention.2.index, mention.2.range, mention.1 = .name, mention.1 = .bound, owner⟩

/-- What can be told of references without their owners is what the occurrences give. -/
theorem referencesOf_map {α : Type} (view : Reference → α) (seen : Role × Atom → α)
    (agrees : ∀ owner mention, view (referenceFor owner mention) = seen mention)
    (owner : Nat) (n : Numbering) (entries : List ScopeEntry) :
    (referencesOf owner n entries).map view = (mentions entries).map seen := by
  fun_induction referencesOf owner n entries with
  | case1 owner n => simp [mentions]
  | case2 owner n bound a rest ih =>
    have first : view ⟨a.name, a.index, a.range, false, bound, owner⟩ =
        seen (ScopeTree.roleOf bound, a) := by
      rw [← agrees owner]
      cases bound <;> rfl
    rw [List.map_cons, mentions, List.map_cons, ih, first]
  | case3 owner n kind range name inside rest within later =>
    have named (a : Atom) : view ⟨a.name, a.index, a.range, true, false, n.host⟩ =
        seen (.name, a) := agrees n.host (.name, a)
    simp [mentions, within, later, Function.comp_def, named]

private theorem exists_mention {owner : Nat} {n : Numbering} {entries : List ScopeEntry}
    {r : Reference} (member : r ∈ referencesOf owner n entries) :
    ∃ mention ∈ mentions entries, r = referenceFor r.owner mention := by
  have listed := referencesOf_map (fun r => { r with owner := 0 }) (referenceFor 0)
    (fun _ _ => rfl) owner n entries
  have here := List.mem_map_of_mem (f := fun r : Reference => { r with owner := 0 }) member
  rw [listed] at here
  obtain ⟨mention, inside, same⟩ := List.mem_map.mp here
  refine ⟨mention, inside, ?_⟩
  have fields := congrArg (fun s : Reference => { s with owner := r.owner }) same
  exact fields.symm

private theorem Lies.mentioned {atoms : Array Atom} {first stop : Nat} {entries : List ScopeEntry}
    (lies : Lies atoms first stop entries) :
    ∀ mention ∈ mentions entries, ∃ i : Nat, atoms[i]? = some mention.2 := by
  induction lies with
  | nil => simp [mentions]
  | @reference first i stop bound a rest low found later ih =>
    rw [mentions]
    exact List.forall_mem_cons.mpr ⟨⟨i, found⟩, ih⟩
  | @host first left middle right stop kind range name inside rest inner kinds low spans front
      named within later ih behind =>
    intro mention member
    rw [mentions, List.mem_append, List.mem_append] at member
    rcases member with (naming | deeper) | after
    · obtain ⟨a, given, rfl⟩ := List.mem_map.mp naming
      obtain ⟨i, -, -, found⟩ := named a (Option.mem_toList.mp given)
      exact ⟨i, found⟩
    · exact ih mention deeper
    · exact behind mention after

theorem hostsOf_append (parent : Nat) (n : Numbering) (left right : List ScopeEntry) :
    hostsOf parent n (left ++ right) =
      hostsOf parent n left ++ hostsOf parent (n.behind left) right := by
  fun_induction hostsOf parent n left with
  | case1 => simp [Numbering.behind]
  | case2 parent n bound a rest ih => simp [hostsOf, Numbering.behind, ih]
  | case3 parent n kind range name inside rest within ih =>
    simp [hostsOf, Numbering.behind, ih]

variable (native : String → Bool) (atoms : Array Atom)

private theorem hostsOf_noted (parent : Nat) (n : Numbering) (bound : Bool) (node : Node) :
    hostsOf parent n (noted native atoms bound node) = [] := by
  rw [noted]
  induction (atomOf atoms node).toList.filter (·.isTracked native) generalizing n with
  | nil => simp [hostsOf]
  | cons a rest ih => rw [List.map_cons, hostsOf, ih]

private theorem hostsOf_headerOf (parent : Nat) (n : Numbering) (slots : List Node) :
    hostsOf parent n (slots.head?.toList.flatMap (headerOf native atoms)) = [] := by
  cases slots with
  | nil => simp [hostsOf]
  | cons node rest =>
    rw [List.head?_cons, Option.toList_some, List.flatMap_singleton]
    cases node with
    | atom index => exact hostsOf_noted native atoms parent n true _
    | form span items =>
      rw [headerOf]
      induction items generalizing n with
      | nil => simp [hostsOf]
      | cons node rest ih =>
        rw [List.flatMap_cons, hostsOf_append, hostsOf_noted, ih, List.append_nil]

theorem body_suffix (v : FormView) (n : Nat) (items : List Node) :
    (fromKey v n (items.drop 1)).tail <:+ items :=
  (List.tail_suffix _).trans ((fromKey_suffix v n _).trans (List.drop_suffix 1 items))

def Opens (f : Form) (kind : HostKind) (range : Range) : Prop :=
  kindOf atoms f.items = some kind ∧ (FormView.mk atoms f false).range = range

/-- Every host stands for a form among the nodes, which no other host stands for, and both are in
the order of the source. -/
theorem hostsOf_ofNodes (parent : Nat) (n : Numbering) (nodes : List Node) :
    ∃ forms, forms.Sublist (Node.formsOf nodes) ∧
      List.Forall₂ (fun h f => Opens atoms f h.kind h.range)
        (hostsOf parent n (ofNodes native atoms nodes)) forms := by
  fun_induction ofNodes native atoms nodes generalizing parent n with
  | case1 => exact ⟨[], .refl _, by simp [hostsOf]⟩
  | case2 index rest ih =>
    rw [hostsOf_append, hostsOf_noted, List.nil_append]
    exact ih parent _
  | case3 span items rest plain inner ih =>
    rw [hostsOf_append]
    obtain ⟨inside, part, opens⟩ := inner parent n
    obtain ⟨later, others, follow⟩ := ih parent (n.behind (ofNodes native atoms items))
    exact ⟨inside ++ later, (part.cons _).append others, List.rel_append opens follow⟩
  | case4 span items rest v kind localizes slots =>
    rename_i inner ih
    rw [hostsOf, hostsOf_append, hostsOf_headerOf, List.nil_append]
    obtain ⟨inside, part, opens⟩ := inner n.host _
    obtain ⟨later, others, follow⟩ := ih parent _
    have deeper := part.trans (Node.formsOf_sublist (body_suffix v kind.headerKey items))
    exact ⟨⟨span, items⟩ :: (inside ++ later), (deeper.cons_cons _).append others,
      .cons ⟨localizes, rfl⟩ (List.rel_append opens follow)⟩

end Outline

theorem ScopeTree.build_reference (native : String → Bool) (file : String) {d : Document}
    (sourced : d.Sourced) {r : Reference} (member : r ∈ (build native file d).references) :
    ∃ mention ∈ Outline.mentions (Outline.ofNodes native d.atoms d.root.items),
      d.atoms[r.index]? = some mention.2 ∧ r = Outline.referenceFor r.owner mention := by
  rw [build_eq_ofOutline, ofOutline, List.mem_toArray] at member
  obtain ⟨mention, mentioned, made⟩ := Outline.exists_mention member
  have lies := Outline.ofNodes_lies native d.root.items sourced.covers sourced.forms
  obtain ⟨i, found⟩ := lies.mentioned _ mentioned
  have index : r.index = i := by
    rw [made]
    exact sourced.indexed i mention.2 found
  exact ⟨mention, mentioned, index ▸ found, made⟩

/-- A document of words: no atom starts with a blank, and every form starts with a glyph. -/
structure Document.Worded (d : Document) : Prop where
  starts : ∀ (i : Nat) (a : Atom), d.atoms[i]? = some a → StartsWord a.symbol.toList
  opens : ∀ f ∈ d.root.nested, ∃ i rest, f.items = .atom i :: rest ∧
    (d.Passes Atom.isLeftParen i ∨ d.Passes Atom.isQuote i)

theorem build_worded (native : String → Bool) (text : String) :
    (Document.build native text).Worded where
  starts i a found := by
    apply build_starts native text
    rw [← Array.getElem?_toList] at found
    exact List.mem_map_of_mem (List.mem_of_getElem? found)
  opens f nested := by
    have reads := build_reads native text
    obtain ⟨next, glyphs, body, opening, split, -⟩ := Nesting.made_body (reads.rest.made f nested)
    cases opening with
    | plain left => exact ⟨_, body, split, .inl ((reads.left _).mpr left)⟩
    | quoted quoted => exact ⟨_, _, split, .inr ((reads.quoted _).mp quoted).1⟩

namespace Document

theorem Passes.annotate {d : Document} {test : Atom → Bool} {i : Nat} (passes : d.Passes test i)
    (spelled : ∀ a b : Atom, a.symbol = b.symbol → test a = test b) :
    d.annotate.1.Passes test i := by
  obtain ⟨a, found, passed⟩ := passes
  obtain ⟨size, places⟩ := marks_atoms (bindings d.atoms d.symbolIndices) d.atoms
  have inside : i < d.annotate.1.atoms.size :=
    (Array.getElem?_eq_some_iff.mp found).1.trans_eq size.symm
  have marked := Array.getElem?_eq_getElem inside
  obtain ⟨b, here, symbol, -⟩ := places i _ marked
  obtain rfl := Option.some.inj (found.symm.trans here)
  exact ⟨_, marked, (spelled _ _ symbol).trans passed⟩

private theorem Worded.annotate {d : Document} (worded : d.Worded) : d.annotate.1.Worded where
  starts i a found := by
    obtain ⟨b, here, symbol, -⟩ := (marks_atoms _ d.atoms).2 i a found
    rw [symbol]
    exact worded.starts i b here
  opens f nested := by
    obtain ⟨i, rest, split, left | quote⟩ := worded.opens f nested
    · exact ⟨i, rest, split, .inl (left.annotate fun a b same => by simp [Atom.isLeftParen, same])⟩
    · exact ⟨i, rest, split, .inr (quote.annotate fun a b same => by simp [Atom.isQuote, same])⟩

end Document

theorem parse_worded (native : String → Bool) (text : String) :
    (Document.parse native text).Worded :=
  (build_worded native text).annotate

end LispIndex
