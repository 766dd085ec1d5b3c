import LispIndex.Proofs.FormShape
import LispIndex.Proofs.SourceOrder
import LispIndex.Proofs.Surroundings
import LispIndex.Proofs.SymbolTable

/-!
The marks that a document gets are what a scan of its atoms finds for each of them: which comments
stand beside a binding, and whether one of them exports it.
-/

namespace LispIndex

namespace Export

variable {atoms : Array Atom} {index head : Nat}

private theorem codeFrom_lt {count : Nat} (found : codeFrom atoms index count = some head) :
    head < atoms.size := by
  induction count generalizing index with
  | zero => cases found
  | succ count ih =>
    rw [codeFrom] at found
    split at found
    next code =>
      obtain rfl := Option.some.inj found
      obtain ⟨a, here, -⟩ := (Option.any_eq_true _ _).mp code
      exact (Array.getElem?_eq_some_iff.mp here).1
    next => exact ih found

theorem formHeadNamed?_spec {around : Surroundings} {names : List String}
    (found : formHeadNamed? around atoms names index = some head) :
    formHead? around atoms index = some head ∧ head < atoms.size ∧
      ∃ a, atoms[head]? = some a ∧ names.any (Text.sameName a.symbol) = true := by
  rw [formHeadNamed?, Option.filter_eq_some_iff] at found
  obtain ⟨paren, -, code⟩ := Option.bind_eq_some_iff.mp found.1
  obtain ⟨a, here, named⟩ := (Option.any_eq_true _ _).mp found.2
  exact ⟨found.1, codeFrom_lt code, a, here, named⟩

private theorem formHeadNamed?_table (bound : index < atoms.size) (names : List String) :
    formHeadNamed? (.table atoms) atoms names index =
      formHeadNamed? (.scan atoms) atoms names index := by
  rw [formHeadNamed?, formHeadNamed?, formHead?, formHead?, Surroundings.table_enclosing? bound]
  rfl

private theorem context_table (indexed : Indexed atoms) (bound : index < atoms.size)
    (inside : head < atoms.size) :
    context (.table atoms) atoms index head = context (.scan atoms) atoms index head := by
  rw [context, context, Surroundings.table_commentAhead? indexed bound,
    Surroundings.table_enclosing? inside]
  rfl

private theorem contexts_table (indexed : Indexed atoms) (bound : index < atoms.size)
    (names : List String) (test : Nat → Bool) :
    ((formHeadNamed? (.table atoms) atoms names index).filter test).map
        (context (.table atoms) atoms index) =
      ((formHeadNamed? (.scan atoms) atoms names index).filter test).map
        (context (.scan atoms) atoms index) := by
  rw [formHeadNamed?_table bound]
  apply Option.map_congr
  intro head found
  rw [Option.filter_eq_some_iff] at found
  exact context_table indexed bound (formHeadNamed?_spec found.1).2.1

theorem bindingContext?_table (indexed : Indexed atoms) (bound : index < atoms.size) :
    bindingContext? (.table atoms) atoms index = bindingContext? (.scan atoms) atoms index := by
  have defined : defunContext? (.table atoms) atoms index =
      defunContext? (.scan atoms) atoms index := contexts_table indexed bound _ _
  have assigned : setqContext? (.table atoms) atoms index =
      setqContext? (.scan atoms) atoms index := contexts_table indexed bound _ _
  rw [bindingContext?, bindingContext?, defined, assigned]

/-- No name is both defined and assigned in one place. -/
theorem setqContext?_of_defun {c : Context}
    (defined : defunContext? (.scan atoms) atoms index = some c) :
    setqContext? (.scan atoms) atoms index = none := by
  obtain ⟨head, first, -⟩ := Option.map_eq_some_iff.mp defined
  rw [Option.filter_eq_some_iff] at first
  obtain ⟨headed, -, a, here, named⟩ := formHeadNamed?_spec first.1
  rw [setqContext?, Option.map_eq_none_iff, setqHead?, Option.filter_eq_none_iff]
  intro other assigned
  obtain ⟨again, -, b, there, spelled⟩ := formHeadNamed?_spec assigned
  obtain rfl := Option.some.inj (headed.symm.trans again)
  obtain rfl := Option.some.inj (here.symm.trans there)
  simp only [List.any_cons, List.any_nil, Bool.or_false, Bool.or_eq_true, Text.sameName,
    beq_iff_eq] at named spelled
  rw [spelled] at named
  exact absurd named (by decide)

theorem canBind_iff : canBind atoms index = true ↔
    0 < index ∧ ¬ ∃ a, atoms[index - 1]? = some a ∧ a.isLeftParen = true := by
  rw [canBind, Bool.and_eq_true, bne_iff_ne, Nat.pos_iff_ne_zero, Bool.not_eq_true',
    Bool.eq_false_iff, ne_eq, ne_eq, Option.any_eq_true]

/-- A binding is exported as what it is, a definition or a variable. -/
theorem isExported_iff (bound : index < atoms.size) :
    isExported atoms index true = true ∨ isExported atoms index false = true ↔
      (bindingContext? (.scan atoms) atoms index).any Context.exported = true := by
  rw [isExported, isExported, bindingContext?]
  cases canBind atoms index with
  | false => simp
  | true =>
    cases defined : defunContext? (.scan atoms) atoms index with
    | none => simp [bound]
    | some c => simp [bound, setqContext?_of_defun defined]

private theorem not_both_exported (index : Nat) :
    ¬ (isExported atoms index true = true ∧ isExported atoms index false = true) := by
  rintro ⟨asDefinition, asVariable⟩
  rw [isExported, Bool.and_eq_true] at asDefinition asVariable
  obtain ⟨c, defined, -⟩ := (Option.any_eq_true _ _).mp asDefinition.2
  rw [if_neg Bool.false_ne_true, setqContext?_of_defun defined] at asVariable
  cases asVariable.2

private theorem commentFrom_comment {line count link : Nat}
    (found : commentFrom atoms line index count = some link) :
    ∃ (i : Nat) (a : Atom), atoms[i]? = some a ∧ a.isComment = true ∧ a.index = link := by
  induction count generalizing index with
  | zero => cases found
  | succ count ih =>
    rw [commentFrom] at found
    split at found
    next => cases found
    next a here =>
      split_ifs at found with same comment
      · exact ⟨index, a, here, comment, Option.some.inj found⟩
      · exact ih found

private theorem commentBehind?_comment {paren link : Nat}
    (found : commentBehind? atoms paren = some link) :
    ∃ a, atoms[link]? = some a ∧ a.isComment = true := by
  rw [commentBehind?] at found
  split at found
  next => cases found
  next =>
    split at found
    next before a here there =>
      split_ifs at found with above
      obtain rfl := Option.some.inj found
      rw [Bool.and_eq_true] at above
      exact ⟨before, here, above.1⟩
    next => cases found

private theorem exists_head {c : Context}
    (found : bindingContext? (.scan atoms) atoms index = some c) :
    ∃ head, context (.scan atoms) atoms index head = c := by
  rw [bindingContext?] at found
  split_ifs at found
  rcases Option.or_eq_some_iff.mp found with defined | ⟨-, assigned⟩
  · obtain ⟨head, -, made⟩ := Option.map_eq_some_iff.mp defined
    exact ⟨head, made⟩
  · obtain ⟨head, -, made⟩ := Option.map_eq_some_iff.mp assigned
    exact ⟨head, made⟩

private theorem context_silent {around : Surroundings}
    (none : (context around atoms index head).links = []) :
    (context around atoms index head).exported = false := by
  rw [context] at none ⊢
  dsimp only at none ⊢
  rw [none]
  rfl

theorem bindingContext?_silent {c : Context}
    (found : bindingContext? (.scan atoms) atoms index = some c) (none : c.links = []) :
    c.exported = false := by
  obtain ⟨head, rfl⟩ := exists_head found
  exact context_silent none

/-- The comments beside a binding are comments. -/
theorem context_comments (indexed : ∀ (i : Nat) (a : Atom), atoms[i]? = some a → a.index = i)
    {c : Context} (found : bindingContext? (.scan atoms) atoms index = some c) :
    ∀ link ∈ c.links, ∃ a, atoms[link]? = some a ∧ a.isComment = true := by
  obtain ⟨head, rfl⟩ := exists_head found
  intro link member
  rw [context, List.mem_append, Option.mem_toList, Option.mem_toList] at member
  rcases member with ahead | behind
  · obtain ⟨a, -, line⟩ := Option.bind_eq_some_iff.mp ahead
    obtain ⟨i, comment, here, isComment, rfl⟩ := commentFrom_comment line
    exact ⟨comment, by rwa [indexed i comment here], isComment⟩
  · obtain ⟨paren, -, above⟩ := Option.bind_eq_some_iff.mp behind
    exact commentBehind?_comment above

end Export

def Atom.marked (a : Atom) (c : Export.Context) : Atom :=
  { a with links := c.links, exported := c.exported }

namespace Document

/-- The marks of some atoms are what is found by scanning the atoms of a document for each of the
places that its table lists. -/
structure Annotates (d : Document) (marked : Array Atom) : Prop where
  size : marked.size = d.atoms.size
  exported : ∀ (i : Nat) (a : Atom), marked[i]? = some a → (a.exported = true ↔ d.Lists i ∧
    (Export.isExported d.atoms i true = true ∨ Export.isExported d.atoms i false = true))
  exclusive : ∀ i,
    ¬ (Export.isExported d.atoms i true = true ∧ Export.isExported d.atoms i false = true)
  linked : ∀ (i : Nat) (a : Atom), marked[i]? = some a →
    d.Lists i → 0 < i → ¬ d.Passes Atom.isLeftParen (i - 1) →
      a.links = (((Export.defunContext? (.scan d.atoms) d.atoms i).or
        (Export.setqContext? (.scan d.atoms) d.atoms i)).map Export.Context.links).getD []
  unlinked : ∀ (i : Nat) (a : Atom), marked[i]? = some a →
    ¬ (d.Lists i ∧ 0 < i ∧ ¬ d.Passes Atom.isLeftParen (i - 1)) → a.links = []
  comments : ∀ (i : Nat) (a : Atom), marked[i]? = some a → ∀ link ∈ a.links,
    ∃ comment, marked[link]? = some comment ∧ comment.isComment = true

private theorem mark_getElem? (atoms : Array Atom) (index i : Nat) (c : Export.Context) :
    (mark atoms (index, c))[i]? =
      if index = i then atoms[i]?.map (·.marked c) else atoms[i]? := by
  rw [mark, Array.getElem?_modify]
  rfl

private theorem marks_getElem? (context? : Nat → Option Export.Context) (indices : List Nat)
    (atoms : Array Atom) (i : Nat) :
    ((indices.filterMap fun index => (context? index).map (index, ·)).foldl mark atoms)[i]? =
      atoms[i]?.map fun a => if i ∈ indices then (context? i).elim a a.marked else a := by
  induction indices generalizing atoms with
  | nil => simp
  | cons index rest ih =>
    cases known : context? index with
    | none =>
      rw [List.filterMap_cons_none (by rw [known]; rfl), ih]
      by_cases same : i = index
      · subst same
        simp [known]
      · simp [same]
    | some c =>
      rw [List.filterMap_cons_some (b := (index, c)) (by rw [known]; rfl), List.foldl_cons, ih,
        mark_getElem?]
      by_cases same : index = i
      · -- A place that is listed again is marked again by the same context.
        subst same
        simp [known, Atom.marked, Function.comp_def]
      · simp [same, Ne.symm same]

def linked? (atoms : Array Atom) (index : Nat) : Option Export.Context :=
  (Export.bindingContext? (.table atoms) atoms index).filter (!·.links.isEmpty)

theorem bindings_marks (atoms others : Array Atom) (indices : List Nat) (i : Nat) :
    ((bindings atoms indices).foldl mark others)[i]? =
      others[i]?.map fun a => if i ∈ indices then (linked? atoms i).elim a a.marked else a :=
  marks_getElem? (linked? atoms) indices others i

def context? (d : Document) (i : Nat) : Option Export.Context :=
  if i ∈ d.symbolIndices then Export.bindingContext? (.scan d.atoms) d.atoms i else none

theorem annotate_getElem? {d : Document} (indexed : Export.Indexed d.atoms) (i : Nat) :
    d.annotate.1.atoms[i]? = d.atoms[i]?.map fun a =>
      ((d.context? i).filter (!·.links.isEmpty)).elim a a.marked := by
  refine (bindings_marks d.atoms d.atoms d.symbolIndices i).trans (Option.map_congr ?_)
  intro a here
  rw [linked?, context?,
    Export.bindingContext?_table indexed (Array.getElem?_eq_some_iff.mp here).1]
  split <;> rfl

/-- Marks change nothing that does not look at them. -/
theorem annotate_map {α : Type} (d : Document) (view : Atom → α)
    (blind : ∀ (a : Atom) (c : Export.Context), view (a.marked c) = view a) (i : Nat) :
    d.annotate.1.atoms[i]?.map view = d.atoms[i]?.map view := by
  have marked := bindings_marks d.atoms d.atoms d.symbolIndices i
  refine (congrArg (Option.map view) marked).trans ?_
  rw [Option.map_map]
  apply Option.map_congr
  intro a _
  rw [Function.comp_apply]
  split
  next =>
    cases linked? d.atoms i with
    | none => rfl
    | some c => exact blind a c
  next => rfl

structure Unmarked (d : Document) : Prop where
  indexed : Export.Indexed d.atoms
  bare : ∀ (i : Nat) (a : Atom), d.atoms[i]? = some a → a.links = [] ∧ a.exported = false

variable {d : Document} {i : Nat} {a : Atom}

private theorem context?_of_canBind (listed : d.Lists i)
    (canBind : 0 < i ∧ ¬ d.Passes Atom.isLeftParen (i - 1)) :
    d.context? i = (Export.defunContext? (.scan d.atoms) d.atoms i).or
      (Export.setqContext? (.scan d.atoms) d.atoms i) := by
  rw [context?, if_pos (mem_symbolIndices.mpr listed), Export.bindingContext?,
    if_pos (Export.canBind_iff.mpr canBind)]

theorem of_context? {c : Export.Context} (found : d.context? i = some c) :
    d.Lists i ∧ (0 < i ∧ ¬ d.Passes Atom.isLeftParen (i - 1)) ∧
      Export.bindingContext? (.scan d.atoms) d.atoms i = some c := by
  rw [context?] at found
  split_ifs at found with listed
  have binds := found
  rw [Export.bindingContext?] at binds
  split_ifs at binds with canBind
  exact ⟨mem_symbolIndices.mp listed, Export.canBind_iff.mp canBind, found⟩

/-- The marks are those of the context, which exports nothing where there is no comment. -/
theorem Unmarked.marks (unmarked : d.Unmarked) (found : d.annotate.1.atoms[i]? = some a) :
    a.links = ((d.context? i).map Export.Context.links).getD [] ∧
      a.exported = (d.context? i).any Export.Context.exported := by
  rw [annotate_getElem? unmarked.indexed] at found
  obtain ⟨b, here, rfl⟩ := Option.map_eq_some_iff.mp found
  cases context : d.context? i with
  | none => exact unmarked.bare i b here
  | some c =>
    rw [Option.filter_some]
    cases links : c.links with
    | nil =>
      have silent := Export.bindingContext?_silent (of_context? context).2.2 links
      simpa [links, silent] using unmarked.bare i b here
    | cons link rest => simp [links, Atom.marked]

theorem context?_any_iff (bound : i < d.atoms.size) :
    (d.context? i).any Export.Context.exported = true ↔ d.Lists i ∧
      (Export.isExported d.atoms i true = true ∨ Export.isExported d.atoms i false = true) := by
  rw [Export.isExported_iff bound, context?, ← mem_symbolIndices]
  split <;> simp [*]

theorem Unmarked.annotates (unmarked : d.Unmarked) (sourced : d.Sourced) :
    d.Annotates d.annotate.1.atoms := by
  have size : d.annotate.1.atoms.size = d.atoms.size := (marks_atoms _ d.atoms).1
  refine ⟨size, ?_, fun i => Export.not_both_exported i, ?_, ?_, ?_⟩
  · intro i a found
    have bound := (Array.getElem?_eq_some_iff.mp found).1
    rw [(unmarked.marks found).2, context?_any_iff (bound.trans_eq size)]
  · intro i a found listed positive apart
    rw [(unmarked.marks found).1, context?_of_canBind listed ⟨positive, apart⟩]
  · intro i a found none
    rw [(unmarked.marks found).1]
    cases context : d.context? i with
    | none => rfl
    | some c =>
      obtain ⟨listed, canBind, -⟩ := of_context? context
      exact absurd ⟨listed, canBind⟩ none
  · intro i a found link member
    rw [(unmarked.marks found).1] at member
    cases context : d.context? i with
    | none =>
      rw [context] at member
      cases member
    | some c =>
      rw [context] at member
      obtain ⟨b, here, comment⟩ :=
        Export.context_comments sourced.indexed (of_context? context).2.2 link member
      rw [annotate_getElem? unmarked.indexed, here, Option.map_some]
      refine ⟨_, rfl, ?_⟩
      cases (d.context? link).filter (!·.links.isEmpty) <;> exact comment

end Document

private theorem atomsFrom_unmarked (index : Nat) (start : Position) (lexemes : List Lexeme) :
    ∀ a ∈ atomsFrom index start lexemes, a.links = [] ∧ a.exported = false := by
  induction lexemes generalizing index start with
  | nil => exact nofun
  | cons lexeme rest ih => exact List.forall_mem_cons.mpr ⟨⟨rfl, rfl⟩, ih _ _⟩

theorem build_unmarked (native : String → Bool) (text : String) :
    (Document.build native text).Unmarked := by
  refine ⟨(build_sourced native text).indexed, ?_⟩
  intro i a found
  rw [← Array.getElem?_toList, build_atoms] at found
  exact atomsFrom_unmarked _ _ _ a (List.mem_of_getElem? found)

/-- The exported names of a document and the comments beside them are marked as they are found by
scanning its atoms for each name. -/
theorem parse_annotated (native : String → Bool) (text : String) :
    (Document.build native text).Annotates (Document.parse native text).atoms :=
  (build_unmarked native text).annotates (build_sourced native text)

end LispIndex
