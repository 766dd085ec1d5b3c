import LispIndex.Proofs.Gathering
import LispIndex.Proofs.LetterCase
import LispIndex.Proofs.SymbolTable

/-!
The table of names against the scopes. Both list the occurrences of names in a document, the table
from its atoms and the scopes from its tree of forms, and they list the same ones as long as the
forms that localize names pass none over.
-/

namespace LispIndex

def Piece.isForm : Piece → Bool
  | .atom _ => false
  | .form _ => true

def Piece.holdsForm : Piece → Bool
  | .atom _ => false
  | .form list => !list.children.isEmpty

/-- Whether a form passes over no name: if it localizes names, then its head is one of the language,
no form stands in place of its name and none inside its header. A name or a header that is missing
hides nothing. -/
def FormView.keepsNames (native : String → Bool) (v : FormView) : Bool :=
  v.head?.all fun head =>
    (HostKind.ofHead? head.symbol).all fun kind =>
      native head.name && !(kind.isNamed && (v.key? 1).any Piece.isForm) &&
        !(v.key? kind.headerKey).any Piece.holdsForm

/-- The references under the document are the table of names, but for names of definitions that the
table does not list. -/
structure ScopeTree.Accounts (t : ScopeTree) (native : String → Bool) (d : Document) : Prop where
  distinct : ((t.symbolsUnder 0).map Prod.fst).Nodup
  listed : ∀ (name : String) (places : List Nat), d.symbols[name]? = some places →
    ∃ ids, (name, ids) ∈ t.symbolsUnder 0 ∧
      ids.map (fun id => t.references[id]?.map Reference.index) = places.map some
  others : ∀ (name : String) (ids : List Nat), (name, ids) ∈ t.symbolsUnder 0 →
    d.symbols[name]? = none → ∀ id ∈ ids, ∃ r a, t.references[id]? = some r ∧
      r.isDefinition = true ∧ d.atoms[r.index]? = some a ∧
      (a.isPrimitive = true ∨ native a.name = true)

namespace Atom

theorem isPrimitive_of_glyph {a : Atom} {c : Char} {more : List Char}
    (spelled : a.symbol.toList = c :: more) (glyph : isGlyph c = true) : a.isPrimitive = true := by
  rw [isPrimitive, isPrimitiveText_eq, spelled, List.head?_cons, Option.any_some, glyph,
    Bool.true_or]

theorem isTracked_of_name {a b : Atom} (same : a.name = b.name) (native : String → Bool) :
    a.isTracked native = b.isTracked native := by
  have primitive : a.isPrimitive = b.isPrimitive := by
    rw [isPrimitive, isPrimitive, ← isPrimitiveText_lower, ← isPrimitiveText_lower b.symbol]
    exact congrArg isPrimitiveText same
  rw [isTracked, isTracked, primitive, same]

end Atom

namespace Outline

variable (native : String → Bool)

def occurrencesIn (atoms : Array Atom) (nodes : List Node) : List Atom :=
  ((Node.leavesOf nodes).filterMap (atoms[·]?)).filter (·.isTracked native)

def mentioned (entries : List ScopeEntry) : List Atom :=
  ((mentions entries).map (·.2)).filter (·.isTracked native)

theorem mentioned_append (left right : List ScopeEntry) :
    mentioned native (left ++ right) = mentioned native left ++ mentioned native right := by
  simp [mentioned, mentions_append]

private theorem mentioned_host (kind : HostKind) (range : Range) (name : Option Atom)
    (inside rest : List ScopeEntry) :
    mentioned native (.host kind range name inside :: rest) =
      name.toList.filter (·.isTracked native) ++ mentioned native inside ++
        mentioned native rest := by
  simp [mentioned, mentions, List.filter_append, Function.comp_def]

private theorem mentions_flatMap {α : Type} (values : List α) (f : α → List ScopeEntry) :
    mentions (values.flatMap f) = values.flatMap fun value => mentions (f value) := by
  induction values with
  | nil => simp [mentions]
  | cons value rest ih => rw [List.flatMap_cons, List.flatMap_cons, mentions_append, ih]

private theorem mentions_noted (atoms : Array Atom) (bound : Bool) (node : Node) :
    mentions (noted native atoms bound node) =
      ((atomOf atoms node).toList.filter (·.isTracked native)).map (ScopeTree.roleOf bound, ·) := by
  rw [noted]
  induction (atomOf atoms node).toList.filter (·.isTracked native) with
  | nil => simp [mentions]
  | cons a rest ih => rw [List.map_cons, mentions, ih, List.map_cons]

private theorem mentioned_noted (atoms : Array Atom) (bound : Bool) (node : Node) :
    mentioned native (noted native atoms bound node) =
      (atomOf atoms node).toList.filter (·.isTracked native) := by
  simp [mentioned, mentions_noted, Function.comp_def]

variable {native} {atoms : Array Atom}

theorem occurrencesIn_cons (node : Node) (rest : List Node) :
    occurrencesIn native atoms (node :: rest) =
      occurrencesIn native atoms [node] ++ occurrencesIn native atoms rest := by
  simp [occurrencesIn, Node.leavesOf]

private theorem occurrencesIn_atom (index : Nat) :
    occurrencesIn native atoms [.atom index] =
      (atomOf atoms (.atom index)).toList.filter (·.isTracked native) := by
  rw [atomOf, Node.index?, Option.bind_some]
  cases found : atoms[index]? <;> simp [occurrencesIn, Node.leavesOf, Node.leaves, found]

private theorem occurrencesIn_form (span : Span) (items : List Node) :
    occurrencesIn native atoms [.form span items] = occurrencesIn native atoms items := by
  simp [occurrencesIn, Node.leavesOf, Node.leaves]

theorem isKey_of_tracked {v : FormView} {index : Nat} {a : Atom}
    (found : v.atoms[index]? = some a) (word : StartsWord a.symbol.toList)
    (tracked : a.isTracked native = true) : v.isKey (.atom index) = true := by
  obtain ⟨c, more, spelled, filled⟩ := word
  have plain : isGlyph c = false := by
    rw [Bool.eq_false_iff]
    intro glyph
    rw [Atom.isTracked, Atom.isPrimitive_of_glyph spelled glyph] at tracked
    cases tracked
  have single (text : String) (d : Char) (whole : text.toList = [d]) (glyph : isGlyph d = true) :
      (a.symbol == text) = false := by
    rw [beq_eq_false_iff_ne]
    rintro rfl
    rw [whole] at spelled
    obtain ⟨rfl, -⟩ := List.cons.inj spelled
    rw [plain] at glyph
    cases glyph
  have comment : a.isComment = false := by
    rw [Atom.isComment, spelled, Bool.eq_false_iff]
    intro front
    obtain rfl : ';' = c := by simpa using front
    cases plain
  simp [FormView.isKey, found, comment, Atom.isQuote, Atom.isLeftParen, Atom.isRightParen,
    single "\x27" '\x27' rfl rfl, single "(" '(' rfl rfl, single ")" ')' rfl rfl,
    single "." '.' rfl rfl, spelled, filled]

private theorem mentioned_list (span : Span) (items : List Node)
    (flat : (Form.mk span items).children = []) :
    mentioned native (items.flatMap (noted native atoms true)) =
      occurrencesIn native atoms items := by
  rw [Form.children, List.filterMap_eq_nil_iff] at flat
  induction items with
  | nil => simp [mentioned, mentions, occurrencesIn, Node.leavesOf]
  | cons node rest ih =>
    rw [List.forall_mem_cons] at flat
    rw [List.flatMap_cons, mentioned_append, ih flat.2, occurrencesIn_cons, mentioned_noted]
    cases node with
    | atom index => rw [occurrencesIn_atom]
    | form span items => cases flat.1

private theorem mentioned_header (v : FormView) (slots : List Node)
    (flat : (slots.head?.bind v.piece?).any Piece.holdsForm = false) :
    mentioned native (slots.head?.toList.flatMap (headerOf native v.atoms)) ++
      occurrencesIn native v.atoms slots.tail = occurrencesIn native v.atoms slots := by
  cases slots with
  | nil => simp [mentioned, mentions]
  | cons node rest =>
    rw [List.head?_cons, Option.toList_some, List.flatMap_singleton, List.tail_cons,
      occurrencesIn_cons]
    cases node with
    | atom index => rw [headerOf, mentioned_noted, occurrencesIn_atom]
    | form span items =>
      rw [headerOf, occurrencesIn_form, mentioned_list span items]
      simpa [FormView.piece?, Piece.holdsForm, FormView.children, FormView.child] using flat

section Words

variable {v : FormView}
  (starts : ∀ (i : Nat) (a : Atom), v.atoms[i]? = some a → StartsWord a.symbol.toList)
include starts

/-- What stands before the first key of a form is no occurrence of a name. -/
theorem occurrencesIn_fromKey (nodes : List Node) :
    occurrencesIn native v.atoms (fromKey v 0 nodes) = occurrencesIn native v.atoms nodes := by
  induction nodes with
  | nil => rw [fromKey]
  | cons node rest ih =>
    cases key : v.isKey node with
    | true => rw [fromKey, if_pos key]
    | false =>
      rw [fromKey, key, if_neg Bool.false_ne_true, ih, occurrencesIn_cons]
      cases node with
      | form span items => cases key
      | atom index =>
        have none : occurrencesIn native v.atoms [.atom index] = [] := by
          rw [occurrencesIn_atom, atomOf, Node.index?, Option.bind_some, List.filter_eq_nil_iff]
          intro a found tracked
          rw [Option.mem_toList] at found
          rw [isKey_of_tracked found (starts index a found) tracked] at key
          cases key
        rw [none, List.nil_append]

private theorem mentioned_name (behind : List Node)
    (plain : ((fromKey v 0 behind).head?.bind v.piece?).any Piece.isForm = false) :
    ((fromKey v 0 behind).head?.bind (atomOf v.atoms)).toList.filter (·.isTracked native) ++
      occurrencesIn native v.atoms (fromKey v 0 (fromKey v 0 behind).tail) =
        occurrencesIn native v.atoms behind := by
  rw [occurrencesIn_fromKey starts, ← occurrencesIn_fromKey starts behind]
  generalize fromKey v 0 behind = slots at plain ⊢
  cases slots with
  | nil => rfl
  | cons node rest =>
    rw [occurrencesIn_cons]
    cases node with
    | atom index => rw [occurrencesIn_atom]; rfl
    | form span items => cases plain

/-- A host mentions all names in its form. -/
theorem occurrences_of_host (kind : HostKind) (nested : v.isRoot = false)
    {index : Nat} {rest : List Node} (glyph : v.form.items = .atom index :: rest)
    (silent : occurrencesIn native v.atoms [.atom index] = [])
    (localizes : kindOf v.atoms v.form.items = some kind) (keeps : v.keepsNames native = true) :
    (nameOf v kind v.form.items).toList.filter (·.isTracked native) ++
      (mentioned native ((fromKey v kind.headerKey (v.form.items.drop 1)).head?.toList.flatMap
          (headerOf native v.atoms)) ++
        occurrencesIn native v.atoms (fromKey v kind.headerKey (v.form.items.drop 1)).tail) =
      occurrencesIn native v.atoms v.form.items := by
  obtain ⟨head, first, kinded⟩ := Option.bind_eq_some_iff.mp localizes
  rw [FormView.keepsNames, head?_eq v nested, first, Option.all_some, kinded, Option.all_some,
    key?_eq, key?_eq] at keeps
  simp only [Bool.and_eq_true, Bool.not_eq_true'] at keeps
  obtain ⟨place, behind, slots, here⟩ := fromKey_head v _ head kind first kinded
  rw [glyph, List.drop_succ_cons, List.drop_zero] at first keeps slots ⊢
  -- Neither the opening glyph nor the head is an occurrence, so that all of them are behind.
  have headless : occurrencesIn native v.atoms [.atom place] = [] := by
    rw [occurrencesIn_atom, atomOf, Node.index?, Option.bind_some, here]
    simp [Atom.isTracked, keeps.1.1]
  have tail : occurrencesIn native v.atoms (.atom index :: rest) =
      occurrencesIn native v.atoms behind := by
    rw [occurrencesIn_cons, silent, List.nil_append, ← occurrencesIn_fromKey starts rest, slots,
      occurrencesIn_cons, headless, List.nil_append]
  have second : fromKey v 1 rest = fromKey v 0 behind := by
    rw [fromKey_succ, slots, List.tail_cons]
  rw [mentioned_header v _ keeps.2, tail, nameOf, HostKind.headerKey]
  cases named : kind.isNamed with
  | false =>
    rw [if_neg Bool.false_ne_true, if_neg Bool.false_ne_true, second,
      occurrencesIn_fromKey starts]
    rfl
  | true =>
    rw [if_pos rfl, if_pos rfl, List.drop_succ_cons, List.drop_zero, fromKey_succ v 1, second]
    apply mentioned_name starts behind
    rw [named, second] at keeps
    exact keeps.1.2

end Words

/-- An outline mentions the names among the items in their order and leaves out none. -/
theorem mentioned_ofNodes (nodes : List Node)
    (starts : ∀ (i : Nat) (a : Atom), atoms[i]? = some a → StartsWord a.symbol.toList)
    (keeps : ∀ f ∈ Node.formsOf nodes, (FormView.mk atoms f false).keepsNames native = true ∧
      ∃ index rest, f.items = .atom index :: rest ∧
        occurrencesIn native atoms [.atom index] = []) :
    mentioned native (ofNodes native atoms nodes) = occurrencesIn native atoms nodes := by
  fun_induction ofNodes native atoms nodes with
  | case1 => simp [mentioned, mentions, occurrencesIn, Node.leavesOf]
  | case2 index rest ih =>
    rw [mentioned_append, mentioned_noted, ih keeps, occurrencesIn_cons, occurrencesIn_atom]
  | case3 span items rest plain inner ih =>
    rw [Node.formsOf, List.forall_mem_append, Node.forms, List.forall_mem_cons] at keeps
    rw [mentioned_append, inner keeps.1.2, ih keeps.2, occurrencesIn_cons, occurrencesIn_form]
  | case4 span items rest v kind localizes slots =>
    rename_i inner ih
    rw [Node.formsOf, List.forall_mem_append, Node.forms, List.forall_mem_cons] at keeps
    obtain ⟨⟨⟨passes, index, others, glyph, silent⟩, deeper⟩, later⟩ := keeps
    have body := inner fun f member =>
      deeper f (Node.formsOf_suffix (body_suffix v _ items) member)
    have whole := occurrences_of_host starts kind rfl glyph silent localizes passes
    rw [mentioned_host, mentioned_append, body, ih later, whole, occurrencesIn_cons,
      occurrencesIn_form]

/-- Only names of definitions are mentioned without being tracked. -/
theorem tracked_of_mention (nodes : List Node) :
    ∀ mention ∈ mentions (ofNodes native atoms nodes),
      mention.1 = .name ∨ mention.2.isTracked native = true := by
  have note (bound : Bool) (node : Node) :
      ∀ mention ∈ mentions (noted native atoms bound node),
        mention.1 = .name ∨ mention.2.isTracked native = true := by
    intro mention member
    rw [mentions_noted] at member
    obtain ⟨a, listed, rfl⟩ := List.mem_map.mp member
    exact .inr (List.mem_filter.mp listed).2
  have header (node : Node) :
      ∀ mention ∈ mentions (headerOf native atoms node),
        mention.1 = .name ∨ mention.2.isTracked native = true := by
    cases node with
    | atom index => exact note true _
    | form span items =>
      intro mention member
      rw [headerOf, mentions_flatMap] at member
      obtain ⟨item, -, inside⟩ := List.mem_flatMap.mp member
      exact note true item mention inside
  fun_induction ofNodes native atoms nodes with
  | case1 => simp [mentions]
  | case2 index rest ih =>
    rw [mentions_append, List.forall_mem_append]
    exact ⟨note false _, ih⟩
  | case3 span items rest plain inner ih =>
    rw [mentions_append, List.forall_mem_append]
    exact ⟨inner, ih⟩
  | case4 span items rest v kind localizes slots =>
    rename_i inner ih
    rw [mentions, List.forall_mem_append, List.forall_mem_append, mentions_append,
      List.forall_mem_append]
    refine ⟨⟨?_, ?_, inner⟩, ih⟩
    · intro mention member
      obtain ⟨a, -, rfl⟩ := List.mem_map.mp member
      exact .inl rfl
    · intro mention member
      rw [mentions_flatMap] at member
      obtain ⟨node, -, inside⟩ := List.mem_flatMap.mp member
      exact header node mention inside

end Outline

private theorem range_lookups {α : Type} (values : Array α) :
    (List.range values.size).map (values[·]?) = values.toList.map some := by
  apply List.ext_getElem
  · simp
  · intro i left right
    have bound : i < values.size := by simpa using left
    simp [bound]

namespace ScopeTree

private theorem named_references (t : ScopeTree) (key : String) :
    ((List.range t.references.size).filter (t.isNamed key)).map (t.references[·]?) =
      (t.references.toList.filter (·.name == key)).map some := by
  have places := congrArg (List.filter (Option.any (·.name == key))) (range_lookups t.references)
  rw [List.filter_map, List.filter_map] at places
  exact places

private theorem ofOutline_places (file : String) (range : Range) (entries : List ScopeEntry)
    (key : String) :
    ((ofOutline file range entries).references.toList.filter (·.name == key)).map Reference.index =
      (((Outline.mentions entries).map (·.2)).filter (·.name == key)).map Atom.index := by
  have views := Outline.referencesOf_map (fun r => (r.name, r.index))
    (fun mention => (mention.2.name, mention.2.index)) (fun _ _ => rfl) 0 .start entries
  have named := congrArg (fun pairs => (pairs.filter (·.1 == key)).map Prod.snd) views
  simp only [List.filter_map, List.map_map, Function.comp_def] at named ⊢
  exact named

end ScopeTree

namespace Document

variable {d : Document} {native : String → Bool}

private theorem Worded.silent (worded : d.Worded) {f : Form} (nested : f ∈ d.root.nested) :
    ∃ index rest, f.items = .atom index :: rest ∧
      Outline.occurrencesIn native d.atoms [.atom index] = [] := by
  obtain ⟨index, rest, split, glyph⟩ := worded.opens f nested
  have spelled : ∃ a c, d.atoms[index]? = some a ∧ a.symbol.toList = [c] ∧ isGlyph c = true := by
    rcases glyph with ⟨a, found, left⟩ | ⟨a, found, quote⟩
    · exact ⟨a, '(', found, by rw [beq_iff_eq.mp left]; rfl, rfl⟩
    · exact ⟨a, '\x27', found, by rw [beq_iff_eq.mp quote]; rfl, rfl⟩
  obtain ⟨a, c, found, single, isGlyph⟩ := spelled
  refine ⟨index, rest, split, ?_⟩
  rw [Outline.occurrencesIn_atom, Outline.atomOf, Node.index?, Option.bind_some, found]
  simp [Atom.isTracked, Atom.isPrimitive_of_glyph single isGlyph]

private theorem Sourced.occurrences (sourced : d.Sourced) :
    Outline.occurrencesIn native d.atoms d.root.items =
      d.atoms.toList.filter (·.isTracked native) := by
  have all : (List.range d.atoms.size).filterMap (d.atoms[·]?) = d.atoms.toList := by
    have lookups := congrArg (List.filterMap id) (range_lookups d.atoms)
    simpa only [List.filterMap_map, Function.id_comp, Function.comp_def, id_eq,
      List.filterMap_some] using lookups
  rw [Outline.occurrencesIn, sourced.covers.2, Span.indices, Nat.sub_zero, ← List.range_eq_range',
    all]

/-- A name of the table is mentioned at its places and nowhere else. -/
theorem Sourced.mentions_of_listed (sourced : d.Sourced) (worded : d.Worded)
    (keeps : ∀ f ∈ d.root.nested, (d.view.child f).keepsNames native = true) {key : String}
    (listed : SymbolTable.placesOf native d.atoms.toList key ≠ []) :
    ((Outline.mentions (Outline.ofNodes native d.atoms d.root.items)).map (·.2)).filter
      (·.name == key) = d.atoms.toList.filter fun a => a.isTracked native && a.name == key := by
  have mentioned := Outline.mentioned_ofNodes d.root.items worded.starts
    fun f nested => ⟨keeps f nested, worded.silent nested⟩
  rw [sourced.occurrences, Outline.mentioned] at mentioned
  rw [SymbolTable.placesOf, ne_eq, List.map_eq_nil_iff] at listed
  obtain ⟨b, member⟩ := List.exists_mem_of_ne_nil _ listed
  simp only [List.mem_filter, Bool.and_eq_true, beq_iff_eq] at member
  obtain ⟨-, tracked, rfl⟩ := member
  have split (atoms : List Atom) : (atoms.filter fun a => a.isTracked native && a.name == b.name) =
      (atoms.filter (·.isTracked native)).filter (·.name == b.name) := by
    rw [List.filter_filter]
    simp only [Bool.and_comm]
  -- A mention under the name of a tracked atom is tracked itself, even as the name of a definition.
  rw [split, ← mentioned, List.filter_filter]
  apply List.filter_congr
  intro a _
  by_cases same : a.name = b.name
  · simp [same, Atom.isTracked_of_name same native, tracked]
  · simp [same]

end Document

namespace ScopeTree

variable (native : String → Bool) (file : String) {d : Document}

def named (t : ScopeTree) (key : String) : List Nat :=
  (List.range t.references.size).filter (t.isNamed key)

private theorem build_lookup (d : Document) (key : String) :
    ((build native file d).symbolsUnder 0).lookup key =
      if (build native file d).named key = [] then none
      else some ((build native file d).named key) := by
  rw [build_eq_ofOutline, ofOutline_symbols, gather_lookup]
  rfl

private theorem build_distinct (d : Document) :
    (((build native file d).symbolsUnder 0).map Prod.fst).Nodup := by
  rw [build_eq_ofOutline, ofOutline_symbols]
  exact gather_nodup _ _ List.nodup_nil

private theorem build_places (sourced : d.Sourced) (worded : d.Worded)
    (keeps : ∀ f ∈ d.root.nested, (d.view.child f).keepsNames native = true) {key : String}
    (listed : SymbolTable.placesOf native d.atoms.toList key ≠ []) :
    ((build native file d).named key).map
        (fun id => (build native file d).references[id]?.map Reference.index) =
      (SymbolTable.placesOf native d.atoms.toList key).map some := by
  have indices := congrArg (List.map (Option.map Reference.index))
    (named_references (build native file d) key)
  have places := ofOutline_places file d.view.range
    (Outline.ofNodes native d.atoms d.root.items) key
  rw [← build_eq_ofOutline, sourced.mentions_of_listed worded keeps listed] at places
  rw [SymbolTable.placesOf, ← places]
  simpa only [named, List.map_map, Function.comp_def, Option.map_some] using indices

/-- A reference under a name that the table does not list is the name of a definition. -/
theorem build_unlisted (sourced : d.Sourced) {key : String} {id : Nat}
    (unlisted : SymbolTable.placesOf native d.atoms.toList key = [])
    (member : id ∈ (build native file d).named key) :
    ∃ r a, (build native file d).references[id]? = some r ∧ r.isDefinition = true ∧
      d.atoms[r.index]? = some a ∧ (a.isPrimitive = true ∨ native a.name = true) := by
  obtain ⟨-, isNamed⟩ := List.mem_filter.mp member
  obtain ⟨r, here, name⟩ := (Option.any_eq_true _ _).mp isNamed
  obtain ⟨mention, mentioned, found, made⟩ :=
    build_reference native file sourced (Array.mem_of_getElem? here)
  have untracked : mention.2.isTracked native = false := by
    rw [SymbolTable.placesOf, List.map_eq_nil_iff, List.filter_eq_nil_iff] at unlisted
    have atom : mention.2 ∈ d.atoms.toList :=
      Array.mem_toList_iff.mpr (Array.mem_of_getElem? found)
    have same : (mention.2.name == key) = true := by
      rw [made] at name
      exact name
    simpa [same] using unlisted mention.2 atom
  have role : mention.1 = .name := by
    rcases Outline.tracked_of_mention d.root.items mention mentioned with role | tracked
    · exact role
    · rw [untracked] at tracked
      cases tracked
  refine ⟨r, mention.2, here, ?_, found, ?_⟩
  · rw [made]
    exact decide_eq_true role
  · simpa [Atom.isTracked, Decidable.or_iff_not_imp_left] using untracked

theorem build_accounts (sourced : d.Sourced) (worded : d.Worded)
    (table : d.symbols = .ofAtoms native d.atoms)
    (keeps : ∀ f ∈ d.root.nested, (d.view.child f).keepsNames native = true) :
    (build native file d).Accounts native d := by
  have distinct := build_distinct native file d
  refine ⟨distinct, ?_, ?_⟩
  · intro key places found
    rw [table, SymbolTable.getElem?_ofAtoms] at found
    split at found
    next => cases found
    next listed =>
      obtain rfl := Option.some.inj found
      have same := build_places native file sourced worded keeps listed
      have filled : (build native file d).named key ≠ [] := by
        intro none
        rw [none, List.map_nil, eq_comm, List.map_eq_nil_iff] at same
        exact listed same
      refine ⟨_, ?_, same⟩
      rw [mem_iff_lookup distinct, build_lookup, if_neg filled]
  · intro key ids member missing id inside
    rw [table, SymbolTable.getElem?_ofAtoms] at missing
    rw [mem_iff_lookup distinct, build_lookup] at member
    split at missing
    next unlisted =>
      split at member
      next => cases member
      next =>
        obtain rfl := Option.some.inj member
        exact build_unlisted native file sourced unlisted inside
    next => cases missing

end ScopeTree

/-- The table of names and the scopes of a document list the same occurrences. -/
theorem build_names_agree (native : String → Bool) (file text : String)
    (keeps : ∀ f ∈ (Document.build native text).root.nested,
      ((Document.build native text).view.child f).keepsNames native = true) :
    (ScopeTree.build native file (Document.build native text)).Accounts native
      (Document.build native text) :=
  ScopeTree.build_accounts native file (build_sourced native text) (build_worded native text) rfl
    keeps

theorem build_names_agree_nested :
    let native := ["defun", "foreach"].contains
    let d := Document.build native
      "(defun F (x / y) (foreach z \x27(y . x) (f z)))\n(defun T () nil) ; T"
    (∀ f ∈ d.root.nested, (d.view.child f).keepsNames native = true) ∧
      (ScopeTree.build native "a.lsp" d).Accounts native d := by
  intro native d
  have keeps : d.root.nested.all (fun f => (d.view.child f).keepsNames native) = true := by
    decide +kernel
  have each := List.all_eq_true.mp keeps
  exact ⟨each, build_names_agree native "a.lsp" _ each⟩

end LispIndex
