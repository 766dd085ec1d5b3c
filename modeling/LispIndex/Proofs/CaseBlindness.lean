import LispIndex.Proofs.ExportMarks
import LispIndex.Proofs.Uncasing
import LispIndex.Proofs.UnseenChanges
import LispIndex.Scope

/-!
The case of letters is never seen. What is asked of the atoms of a document, on the way to its
marks and to its scopes, has the same answer when all their letters are made small, so that texts
which differ in the case of ASCII letters are indexed alike.
-/

namespace LispIndex

private theorem Atom.uncased_unseen : Export.Unseen uncased where
  isComment := isComment_uncased
  isLeftParen := isLeftParen_uncased
  isRightParen := isRightParen_uncased
  isQuote := isQuote_uncased
  isPrimitive := isPrimitive_uncased
  sameName a := funext (Text.sameName_uncased a.symbol)
  holdsMarker a := by
    rw [uncased, Export.holdsMarker, Text.toList_uncased, Text.map_toLower_map, Export.holdsMarker]
  line _ := rfl
  lastLine a := congrArg Position.line a.stop_uncased
  index _ := rfl

namespace Document

private theorem annotate_uncased (d : Document) (indexed : Export.Indexed d.atoms) :
    d.uncased.annotate.1 = d.annotate.1.uncased := by
  have uncased_indexed : Export.Indexed d.uncased.atoms := by
    intro i a found
    change (d.atoms.map Atom.uncased)[i]? = some a at found
    rw [Array.getElem?_map] at found
    obtain ⟨b, here, rfl⟩ := Option.map_eq_some_iff.mp found
    exact indexed i b here
  have contexts (i : Nat) : d.uncased.context? i = d.context? i := by
    change (if i ∈ d.symbolIndices then _ else _) = _
    rw [uncased, Atom.uncased_unseen.scan_map, Atom.uncased_unseen.bindingContext?_map, context?]
  have atoms : d.uncased.annotate.1.atoms = d.annotate.1.uncased.atoms := by
    apply Array.ext_getElem?
    intro i
    change _ = (d.annotate.1.atoms.map Atom.uncased)[i]?
    rw [annotate_getElem? uncased_indexed, contexts, Array.getElem?_map, annotate_getElem? indexed,
      Option.map_map]
    change ((d.atoms.map Atom.uncased)[i]?).map _ = _
    rw [Array.getElem?_map, Option.map_map]
    apply Option.map_congr
    intro a _
    cases (d.context? i).filter (!·.links.isEmpty) <;> rfl
  exact Document.ext atoms rfl rfl rfl

private theorem parse_uncased (native : String → Bool) (text : String) :
    parse native (Text.uncased text) = (parse native text).uncased := by
  rw [parse, build_uncased, annotate_uncased _ (build_sourced native text).indexed, parse]

end Document

def FormView.uncased (v : FormView) : FormView :=
  ⟨v.atoms.map Atom.uncased, v.form, v.isRoot⟩

def Piece.uncased : Piece → Piece
  | .atom a => .atom a.uncased
  | .form v => .form v.uncased

namespace FormView

variable (v : FormView)

private theorem piece?_uncased (node : Node) :
    v.uncased.piece? node = (v.piece? node).map Piece.uncased := by
  cases node with
  | form span items => rfl
  | atom index =>
    rw [piece?, piece?, uncased, Array.getElem?_map, Option.map_map, Option.map_map]
    rfl

private theorem item?_uncased (place : Nat) :
    v.uncased.item? place = (v.item? place).map Piece.uncased := by
  rw [item?, item?, Option.map_bind, funext v.piece?_uncased]
  rfl

private theorem headPiece?_uncased : v.uncased.headPiece? = v.headPiece?.map Piece.uncased := by
  rw [headPiece?, funext v.piece?_uncased, ← List.map_filterMap, List.find?_map, headPiece?]
  congr 2
  funext piece
  cases piece with
  | form => rfl
  | atom a =>
    rw [Function.comp_apply, Piece.uncased]
    dsimp only
    rw [Atom.isComment_uncased, Atom.isLeftParen_uncased, Atom.isQuote_uncased]

private theorem head?_uncased : v.uncased.head? = v.head?.map Atom.uncased := by
  rw [head?, head?, headPiece?_uncased]
  cases v.headPiece? with
  | none => rfl
  | some piece => cases piece <;> rfl

private theorem isKey_uncased (node : Node) : v.uncased.isKey node = v.isKey node := by
  cases node with
  | form span items => rfl
  | atom index =>
    apply Atom.any_map
    intro a
    have blank : a.uncased.symbol.toList.all Text.isBlank = a.symbol.toList.all Text.isBlank := by
      rw [Atom.uncased, Text.toList_uncased, List.all_map]
      exact congrArg _ (funext Text.isBlank_toLower)
    have point : (a.uncased.symbol == ".") = (a.symbol == ".") := Text.uncased_beq a.symbol rfl
    rw [blank, point, Atom.isComment_uncased, Atom.isQuote_uncased, Atom.isLeftParen_uncased,
      Atom.isRightParen_uncased]

private theorem keyIndex?_uncased (n : Nat) : v.uncased.keyIndex? n = v.keyIndex? n := by
  rw [keyIndex?, keyIndices, funext v.isKey_uncased]
  rfl

private theorem key?_uncased (n : Nat) : v.uncased.key? n = (v.key? n).map Piece.uncased := by
  rw [key?, key?, keyIndex?_uncased, Option.map_bind, funext v.item?_uncased]
  rfl

private theorem range_uncased : v.uncased.range = v.range := by
  have first : v.uncased.first? = v.first?.map Atom.uncased := by
    rw [first?, first?, uncased, Array.getElem?_map]
    split <;> rfl
  have last : v.uncased.last? = v.last?.map Atom.uncased := by
    rw [last?, last?, uncased, Array.getElem?_map]
    split <;> rfl
  rw [range, range, first, last]
  cases v.first? with
  | none => rfl
  | some a =>
    cases v.last? with
    | none => rfl
    | some b =>
      simp only [Option.map_some, Atom.stop_uncased]
      rfl

end FormView

private theorem HostKind.ofHead?_uncased (text : String) :
    ofHead? (Text.uncased text) = ofHead? text := by
  simp only [ofHead?, Text.sameName_uncased]

namespace ScopeTree

variable (native : String → Bool) (t : ScopeTree) (host : Nat)

private theorem pushReference_uncased (role : Role) (a : Atom) :
    t.pushReference host role a.uncased = t.pushReference host role a := by
  rw [pushReference, pushReference, Atom.name_uncased, Atom.range, Atom.stop_uncased]
  rfl

private theorem note_uncased (role : Role) (a : Atom) :
    note native host role t a.uncased = note native host role t a := by
  rw [note, note, Atom.isTracked_uncased, addReference, pushReference_uncased, addReference]

private theorem nameHost_uncased (v : FormView) :
    t.nameHost host v.uncased = t.nameHost host v := by
  rw [nameHost, nameHost, v.key?_uncased]
  cases v.key? 1 with
  | none => rfl
  | some piece =>
    cases piece with
    | form list => rfl
    | atom a => simp only [Option.map_some, Piece.uncased, pushReference_uncased]

private theorem bindHeader_uncased (header : Option Piece) :
    bindHeader native t host (header.map Piece.uncased) = bindHeader native t host header := by
  cases header with
  | none => rfl
  | some piece =>
    cases piece with
    | atom a => exact note_uncased native t host .bound a
    | form list =>
      have direct : directAtoms list.uncased = (directAtoms list).map Atom.uncased := by
        rw [directAtoms, directAtoms, List.map_filterMap]
        congr 1
        funext node
        cases node with
        | form => rfl
        | atom index => exact Array.getElem?_map
      rw [Option.map_some, Piece.uncased, bindHeader, bindHeader, direct, List.foldl_map]
      simp only [note_uncased]

private theorem openHost_uncased (parent : Nat) (kind : HostKind) (v : FormView) :
    t.openHost native parent kind v.uncased = t.openHost native parent kind v := by
  rw [openHost, openHost, v.range_uncased, nameHost_uncased, v.keyIndex?_uncased]
  cases v.keyIndex? kind.headerKey with
  | none => rfl
  | some place =>
    dsimp only
    rw [v.item?_uncased, bindHeader_uncased]

private theorem kind_uncased (v : FormView) :
    (v.uncased.head?.bind fun head => HostKind.ofHead? head.symbol) =
      v.head?.bind fun head => HostKind.ofHead? head.symbol := by
  rw [v.head?_uncased, Option.bind_map]
  apply Option.bind_congr
  intro head _
  rw [Function.comp_apply, Atom.uncased, HostKind.ofHead?_uncased]

private theorem walk_uncased (atoms : Array Atom) (nodes : List (Nat × Node)) :
    walk native (atoms.map Atom.uncased) t nodes = walk native atoms t nodes := by
  fun_induction walk native atoms t nodes with
  | case1 t => rw [walk]
  | case2 t host index rest a found ih =>
    rw [walk, Array.getElem?_map, found]
    dsimp only [Option.map_some]
    rw [note_uncased, ih]
  | case3 t host index rest missing ih =>
    rw [walk, Array.getElem?_map, missing, Option.map_none]
    exact ih
  | case4 t host span items rest v plain ih =>
    have kind : _ = none := (kind_uncased v).trans plain
    rw [FormView.uncased] at kind
    rw [walk, kind]
    exact ih
  | case5 t host span items rest v kind localizes inner opened ih =>
    have same : _ = some kind := (kind_uncased v).trans localizes
    have begun := openHost_uncased native t host kind v
    rw [FormView.uncased] at same begun
    rw [walk, same]
    dsimp only
    rw [begun, ih]

private theorem build_uncased (file : String) (d : Document) :
    build native file d.uncased = build native file d := by
  have range : d.uncased.view.range = d.view.range := d.view.range_uncased
  rw [build, build, range]
  exact walk_uncased native _ d.atoms _

end ScopeTree

/-- Documents that differ in nothing but the case of letters: forms, names, places and marks are the
same, and so is what is told about the atoms and their scopes. -/
structure Document.Recased (d e : Document) : Prop where
  spellings : d.atoms.map (Text.uncased ·.symbol) = e.atoms.map (Text.uncased ·.symbol)
  root : d.root = e.root
  symbols : d.symbols = e.symbols
  ranges : d.atoms.map Atom.range = e.atoms.map Atom.range
  indices : d.atoms.map Atom.index = e.atoms.map Atom.index
  exported : d.atoms.map Atom.exported = e.atoms.map Atom.exported
  links : d.atoms.map Atom.links = e.atoms.map Atom.links
  primitives : d.atoms.map Atom.isPrimitive = e.atoms.map Atom.isPrimitive
  definitions : ∀ i,
    Export.defunHead? (.scan d.atoms) d.atoms i = Export.defunHead? (.scan e.atoms) e.atoms i
  assignments : ∀ i,
    Export.setqHead? (.scan d.atoms) d.atoms i = Export.setqHead? (.scan e.atoms) e.atoms i
  functions : ∀ i, Export.mayNameFunction d.atoms i = Export.mayNameFunction e.atoms i
  scopes : ∀ native file, ScopeTree.build native file d = ScopeTree.build native file e

namespace Document

variable {d e : Document}

private theorem recased_of_uncased (same : d.uncased = e.uncased) : d.Recased e := by
  obtain ⟨atoms, root, symbols, -⟩ := Document.mk.inj same
  have views {α : Type} (view : Atom → α) (blind : ∀ a : Atom, view a.uncased = view a) :
      d.atoms.map view = e.atoms.map view := by
    have same : view ∘ Atom.uncased = view := funext blind
    rw [← same, ← Array.map_map, atoms, Array.map_map]
  have unseen := Atom.uncased_unseen
  constructor
  case spellings => exact views _ fun a => Text.uncased_uncased a.symbol
  case root => exact root
  case symbols => exact symbols
  case ranges => exact views Atom.range Atom.range_uncased
  case indices => exact views Atom.index fun _ => rfl
  case exported => exact views Atom.exported fun _ => rfl
  case links => exact views Atom.links fun _ => rfl
  case primitives => exact views Atom.isPrimitive Atom.isPrimitive_uncased
  case definitions =>
    intro i
    rw [← unseen.scan_map d.atoms, ← unseen.defunHead?_map d.atoms, atoms, unseen.scan_map,
      unseen.defunHead?_map]
  case assignments =>
    intro i
    rw [← unseen.scan_map d.atoms, ← unseen.setqHead?_map d.atoms, atoms, unseen.scan_map,
      unseen.setqHead?_map]
  case functions =>
    intro i
    rw [← unseen.mayNameFunction_map d.atoms, atoms, unseen.mayNameFunction_map]
  case scopes =>
    intro native file
    rw [← ScopeTree.build_uncased native file d, same, ScopeTree.build_uncased]

end Document

/-- The case of ASCII letters does not matter, in names as little as in strings and comments. -/
theorem parse_recased (native : String → Bool) (text other : String)
    (same : Text.sameName text other = true) :
    (Document.parse native text).Recased (Document.parse native other) := by
  apply Document.recased_of_uncased
  rw [← Document.parse_uncased, ← Document.parse_uncased, Text.sameName_iff.mp same]

theorem parse_recased_defun :
    Text.sameName "(DEFUN f (X) x) ; @Global" "(defun F (x) X) ; @GLOBAL" = true ∧
      (Document.parse (fun name => name == "defun") "(DEFUN f (X) x) ; @Global").Recased
        (Document.parse (fun name => name == "defun") "(defun F (x) X) ; @GLOBAL") := by
  have same : Text.sameName "(DEFUN f (X) x) ; @Global" "(defun F (x) X) ; @GLOBAL" = true := by
    decide +kernel
  exact ⟨same, parse_recased _ _ _ same⟩

end LispIndex
