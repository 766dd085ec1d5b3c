import LispIndex.Proofs.FormTree
import LispIndex.Proofs.TokenGrammar

/-!
The shape of the tree on any text. A left parenthesis stands nowhere but at the start of the form it
opens, a right parenthesis at the end of the form it closes or outside of all forms, and forms that
are never closed hang from the document as a chain of last items.
-/

namespace LispIndex

namespace Document

def Passes (d : Document) (test : Atom → Bool) (i : Nat) : Prop :=
  ∃ a, d.atoms[i]? = some a ∧ test a = true

def Touches (d : Document) (i : Nat) : Prop :=
  ∃ a b, d.atoms[i]? = some a ∧ d.atoms[i + 1]? = some b ∧ a.stop = b.start

/-- The item of a form at `place` is the left parenthesis `i` that opens it: its first item, or its
second one behind a quote that touches it. -/
def OpensAt (d : Document) (f : Form) (place i : Nat) : Prop :=
  d.Passes Atom.isLeftParen i ∧ f.items[place]? = some (.atom i) ∧
    (place = 0 ∨ place = 1 ∧ ∃ q, q + 1 = i ∧ f.items[0]? = some (.atom q) ∧
      d.Passes Atom.isQuote q ∧ d.Touches q)

def Closed (d : Document) (f : Form) : Prop :=
  ∃ i, f.items.getLast? = some (.atom i) ∧ d.Passes Atom.isRightParen i

/-- Forms that are reached from `outer` through last items, none of them closed. -/
inductive OpenChain (d : Document) : Form → Form → Prop
  | last (outer f : Form) (final : outer.items.getLast? = some (.form f.span f.items))
      (unclosed : ¬ d.Closed f) : OpenChain d outer f
  | step (outer middle f : Form)
      (final : outer.items.getLast? = some (.form middle.span middle.items))
      (unclosed : ¬ d.Closed middle) (chain : OpenChain d middle f) : OpenChain d outer f

/-- Left parentheses stand only where they open a form, and each opens exactly one, together with a
quote that touches it. Right parentheses are last items of forms or stand outside of them. A form
without one is the last item of the form that holds it, which has none either, so that all such
forms are on one chain of last items. -/
structure Shaped (d : Document) : Prop where
  opens : ∀ i, d.Passes Atom.isLeftParen i →
    ∃! n : Nat, ∃ f place, d.root.nested[n]? = some f ∧ d.OpensAt f place i
  left : ∀ f ∈ d.root.nested, ∀ place i, f.items[place]? = some (.atom i) →
    d.Passes Atom.isLeftParen i → d.OpensAt f place i
  left_root : ∀ i, .atom i ∈ d.root.items → ¬ d.Passes Atom.isLeftParen i
  right : ∀ i, d.Passes Atom.isRightParen i →
    .atom i ∈ d.root.items ∨ ∃ f ∈ d.root.nested, f.items.getLast? = some (.atom i)
  right_last : ∀ f ∈ d.root.nested, ∀ place i, f.items[place]? = some (.atom i) →
    d.Passes Atom.isRightParen i → place + 1 = f.items.length
  quote : ∀ q, d.Passes Atom.isQuote q → d.Passes Atom.isLeftParen (q + 1) → d.Touches q →
    ∀ f ∈ d.root.nested, ∀ place, d.OpensAt f place (q + 1) → f.items[0]? = some (.atom q)
  glyphs : ∀ f ∈ d.root.nested, ∃ place i, d.OpensAt f place i
  unclosed : ∀ f ∈ d.root :: d.root.nested, ∀ place span items,
    f.items[place]? = some (.form span items) → ¬ d.Closed ⟨span, items⟩ →
    place + 1 = f.items.length ∧ ¬ d.Closed f
  chain : ∀ f ∈ d.root.nested, ¬ d.Closed f → d.OpenChain d.root f

end Document

theorem getElem?_parts {front back : List Node} {node : Node} {place : Nat}
    (found : (front ++ back)[place]? = some node) :
    front[place]? = some node ∨
      ∃ behind, place = front.length + behind ∧ back[behind]? = some node := by
  by_cases inside : place < front.length
  · rw [List.getElem?_append_left inside] at found
    exact .inl found
  · rw [List.getElem?_append_right (by omega)] at found
    exact .inr ⟨place - front.length, by omega, found⟩

theorem getElem?_concat {items : List Node} {last node : Node} {place : Nat}
    (found : (items ++ [last])[place]? = some node) :
    items[place]? = some node ∨ place = items.length := by
  rcases getElem?_parts found with earlier | ⟨behind, rfl, final⟩
  · exact .inl earlier
  · have single : behind = 0 := by simpa using (List.getElem?_eq_some_iff.mp final).1
    exact .inr (by rw [single, Nat.add_zero])

namespace Nesting

variable {lexemes : List Lexeme} {top : Bool} {first next stop : Nat} {items glyphs : List Node}

theorem Items.plain (read : Items lexemes top first stop items) (i : Nat)
    (member : .atom i ∈ items) : Plain lexemes top i := by
  induction read with
  | none => cases member
  | atom top first k items before plain ih =>
    rcases List.mem_append.mp member with earlier | last
    · exact ih earlier
    · obtain rfl : i = k := by simpa using last
      exact plain
  | form top first k next stop items glyphs inner before opening inside close ih _ =>
    rcases List.mem_append.mp member with earlier | last
    · exact ih earlier
    · simp at last

theorem Rest.plain (rest : Rest lexemes top first items) (i : Nat) (member : .atom i ∈ items) :
    Plain lexemes top i := by
  cases rest with
  | closed _ _ _ read => exact read.plain i member
  | unclosed _ _ k next items glyphs inner before opening inside =>
    rcases List.mem_append.mp member with earlier | last
    · exact before.plain i earlier
    · simp at last

private theorem Items.form_complete (read : Items lexemes top first stop items) {span : Span}
    {inner : List Node} (member : .form span inner ∈ items) : Complete lexemes ⟨span, inner⟩ :=
  read.complete _ (Node.mem_formsOf member)

private theorem Rest.form_last (rest : Rest lexemes top first items) {place : Nat} {span : Span}
    {inner : List Node} (found : items[place]? = some (.form span inner)) :
    Complete lexemes ⟨span, inner⟩ ∨ place + 1 = items.length := by
  cases rest with
  | closed _ _ _ read => exact .inl (read.form_complete (List.mem_of_getElem? found))
  | unclosed _ _ k next items glyphs body before opening inside =>
    rcases getElem?_concat found with earlier | rfl
    · exact .inl (before.form_complete (List.mem_of_getElem? earlier))
    · exact .inr (by simp)

structure Body (lexemes : List Lexeme) (body : List Node) : Prop where
  notLeft : ∀ i, .atom i ∈ body → kind? lexemes i ≠ some .leftParen
  notQuoted : ∀ i, .atom i ∈ body → ¬ Quoted lexemes i
  right : ∀ place i, body[place]? = some (.atom i) → kind? lexemes i = some .rightParen →
    place + 1 = body.length
  form : ∀ place span items, body[place]? = some (.form span items) →
    Complete lexemes ⟨span, items⟩ ∨ place + 1 = body.length

theorem Items.body (read : Items lexemes false first stop items)
    (close : kind? lexemes stop = some .rightParen) : Body lexemes (items ++ [.atom stop]) where
  notLeft i member := by
    rcases List.mem_append.mp member with earlier | last
    · exact (read.plain i earlier).notLeft
    · obtain rfl : i = stop := by simpa using last
      simp [close]
  notQuoted i member := by
    rcases List.mem_append.mp member with earlier | last
    · exact (read.plain i earlier).notQuoted
    · obtain rfl : i = stop := by simpa using last
      simp [Quoted, close]
  right place i found right := by
    rcases getElem?_concat found with earlier | rfl
    · exact absurd right ((read.plain i (List.mem_of_getElem? earlier)).notRight rfl)
    · simp
  form place span inner found := by
    rcases getElem?_concat found with earlier | rfl
    · exact .inl (read.form_complete (List.mem_of_getElem? earlier))
    · exact .inr (by simp)

theorem Rest.body (rest : Rest lexemes false first items) : Body lexemes items where
  notLeft i member := (rest.plain i member).notLeft
  notQuoted i member := (rest.plain i member).notQuoted
  right _ i found right :=
    absurd right ((rest.plain i (List.mem_of_getElem? found)).notRight rfl)
  form _ _ _ found := rest.form_last found

theorem made_body {f : Form} (made : Complete lexemes f ∨ Unfinished lexemes f) :
    ∃ next glyphs body, Opening lexemes f.span.first next glyphs ∧ f.items = glyphs ++ body ∧
      Body lexemes body := by
  rcases made with ⟨first, next, k, glyphs, inner, opening, inside, close⟩ |
    ⟨first, next, glyphs, inner, opening, inside⟩
  · exact ⟨next, glyphs, inner ++ [.atom k], opening, List.append_assoc .., inside.body close⟩
  · exact ⟨next, glyphs, inner, opening, rfl, inside.body⟩

private theorem Opening.not_right (opening : Opening lexemes first next glyphs) (i : Nat)
    (member : .atom i ∈ glyphs) : kind? lexemes i ≠ some .rightParen := by
  cases opening with
  | plain left =>
    obtain rfl : i = first := by simpa using member
    simp [left]
  | quoted quoted =>
    obtain rfl | rfl : i = first ∨ i = first + 1 := by simpa using member
    · simp [quoted.1]
    · simp [quoted.2.1]

private theorem Opening.quote_glyphs (opening : Opening lexemes first next glyphs) {i : Nat}
    (quoted : Quoted lexemes i) (member : .atom i ∈ glyphs) :
    glyphs = [.atom i, .atom (i + 1)] := by
  cases opening with
  | plain left =>
    obtain rfl : i = first := by simpa using member
    simp [quoted.1] at left
  | quoted opens =>
    obtain rfl | rfl : i = first ∨ i = first + 1 := by simpa using member
    · rfl
    · have left := opens.2.1
      rw [quoted.1] at left
      cases left

theorem Opening.not_form (opening : Opening lexemes first next glyphs) (span : Span)
    (inner : List Node) : .form span inner ∉ glyphs := by
  intro member
  have listed := Node.mem_formsOf member
  rw [opening.forms] at listed
  cases listed

end Nesting

namespace Document

open Nesting

structure Reads (d : Document) (lexemes : List Lexeme) : Prop where
  rest : Rest lexemes true 0 d.root.items
  left : ∀ i, d.Passes Atom.isLeftParen i ↔ kind? lexemes i = some .leftParen
  right : ∀ i, d.Passes Atom.isRightParen i ↔ kind? lexemes i = some .rightParen
  quoted : ∀ i, Quoted lexemes i ↔
    d.Passes Atom.isQuote i ∧ d.Passes Atom.isLeftParen (i + 1) ∧ d.Touches i

private theorem not_closed (d : Document) {f : Form} {place : Nat} {span : Span} {items : List Node}
    (found : f.items[place]? = some (.form span items)) (last : place + 1 = f.items.length) :
    ¬ d.Closed f := by
  rintro ⟨i, final, -⟩
  rw [List.getLast?_eq_getElem?, ← last, Nat.add_sub_cancel, found] at final
  cases final

namespace Reads

variable {d : Document} {lexemes : List Lexeme} {f : Form} {i place : Nat}

private theorem walk (reads : d.Reads lexemes) : d.root.leaves = List.range lexemes.length := by
  rw [List.range_eq_range']
  exact reads.rest.covers.2

theorem opensAt (reads : d.Reads lexemes) {first next : Nat} {glyphs body : List Node}
    (opening : Opening lexemes first next glyphs) (split : f.items = glyphs ++ body)
    (found : glyphs[place]? = some (.atom i)) (left : kind? lexemes i = some .leftParen) :
    d.OpensAt f place i := by
  have bound := (List.getElem?_eq_some_iff.mp found).1
  refine ⟨(reads.left i).mpr left, by rw [split, List.getElem?_append_left bound, found], ?_⟩
  cases opening with
  | plain left => exact .inl (by simpa using bound)
  | quoted quoted =>
    obtain rfl | rfl : place = 0 ∨ place = 1 := by
      simp at bound
      omega
    · obtain rfl : first = i := by simpa using found
      simp [quoted.1] at left
    · obtain rfl : first + 1 = i := by simpa using found
      obtain ⟨quote, -, touches⟩ := (reads.quoted first).mp quoted
      exact .inr ⟨rfl, first, rfl, by rw [split]; rfl, quote, touches⟩

theorem closed (reads : d.Reads lexemes) (complete : Complete lexemes f) : d.Closed f := by
  obtain ⟨first, next, k, glyphs, inner, opening, inside, close⟩ := complete
  exact ⟨k, by simp, (reads.right k).mpr close⟩

theorem unclosed (reads : d.Reads lexemes) (unfinished : Unfinished lexemes f) : ¬ d.Closed f := by
  obtain ⟨first, next, glyphs, inner, opening, inside⟩ := unfinished
  rintro ⟨i, final, right⟩
  rcases List.mem_append.mp (List.mem_of_getLast? final) with glyph | member
  · exact opening.not_right i glyph ((reads.right i).mp right)
  · exact (inside.plain i member).notRight rfl ((reads.right i).mp right)

private theorem left_opens (reads : d.Reads lexemes) (nested : f ∈ d.root.nested)
    (found : f.items[place]? = some (.atom i)) (left : kind? lexemes i = some .leftParen) :
    d.OpensAt f place i := by
  obtain ⟨next, glyphs, body, opening, split, inside⟩ := made_body (reads.rest.made f nested)
  rw [split] at found
  rcases getElem?_parts found with glyph | ⟨_, -, behind⟩
  · exact reads.opensAt opening split glyph left
  · exact absurd left (inside.notLeft i (List.mem_of_getElem? behind))

theorem exists_opened (reads : d.Reads lexemes) (nested : f ∈ d.root.nested) :
    ∃ place i, d.OpensAt f place i := by
  obtain ⟨next, glyphs, body, opening, split, -⟩ := made_body (reads.rest.made f nested)
  cases opened : opening with
  | plain left => exact ⟨0, f.span.first, reads.opensAt opening split rfl left⟩
  | quoted quoted => exact ⟨1, f.span.first + 1, reads.opensAt opening split rfl quoted.2.1⟩

private theorem holder (reads : d.Reads lexemes) (inside : i < lexemes.length) :
    .atom i ∈ d.root.items ∨ ∃ f ∈ d.root.nested, .atom i ∈ f.items :=
  Form.exists_holder (by rw [reads.walk]; exact List.mem_range.mpr inside)

private theorem same_holder (reads : d.Reads lexemes) {n m : Nat} {g : Form}
    (first : d.root.nested[n]? = some f) (second : d.root.nested[m]? = some g)
    (left : .atom i ∈ f.items) (right : .atom i ∈ g.items) : n = m :=
  Form.holder_unique (by rw [reads.walk]; exact List.nodup_range) first second left right

private theorem opens_unique (reads : d.Reads lexemes) (left : kind? lexemes i = some .leftParen) :
    ∃! n : Nat, ∃ f place, d.root.nested[n]? = some f ∧ d.OpensAt f place i := by
  rcases reads.holder (kind?_lt left) with direct | ⟨f, nested, member⟩
  · exact absurd left (reads.rest.plain i direct).notLeft
  · obtain ⟨n, found⟩ := List.mem_iff_getElem?.mp nested
    obtain ⟨place, held⟩ := List.mem_iff_getElem?.mp member
    refine ⟨n, ⟨f, place, found, reads.left_opens nested held left⟩, ?_⟩
    rintro m ⟨g, other, second, -, opened, -⟩
    exact reads.same_holder second found (List.mem_of_getElem? opened) member

theorem right_last (reads : d.Reads lexemes) (nested : f ∈ d.root.nested)
    (found : f.items[place]? = some (.atom i)) (right : kind? lexemes i = some .rightParen) :
    place + 1 = f.items.length := by
  obtain ⟨next, glyphs, body, opening, split, inside⟩ := made_body (reads.rest.made f nested)
  rw [split] at found
  rcases getElem?_parts found with glyph | ⟨behind, rfl, within⟩
  · exact absurd right (opening.not_right i (List.mem_of_getElem? glyph))
  · rw [split, List.length_append, Nat.add_assoc, inside.right behind i within right]

private theorem right_held (reads : d.Reads lexemes) (right : kind? lexemes i = some .rightParen) :
    .atom i ∈ d.root.items ∨ ∃ f ∈ d.root.nested, f.items.getLast? = some (.atom i) := by
  rcases reads.holder (kind?_lt right) with direct | ⟨f, nested, member⟩
  · exact .inl direct
  · obtain ⟨place, held⟩ := List.mem_iff_getElem?.mp member
    have last := reads.right_last nested held right
    refine .inr ⟨f, nested, ?_⟩
    rw [List.getLast?_eq_getElem?, ← last, Nat.add_sub_cancel, held]

private theorem quote_first (reads : d.Reads lexemes) (quoted : Quoted lexemes i)
    (nested : f ∈ d.root.nested) (opened : .atom (i + 1) ∈ f.items) :
    f.items[0]? = some (.atom i) := by
  -- The form that holds the quote has it among its glyphs, so it holds the parenthesis as well.
  rcases reads.holder (kind?_lt quoted.1) with direct | ⟨g, other, member⟩
  · exact absurd quoted (reads.rest.plain i direct).notQuoted
  · obtain ⟨next, glyphs, body, opening, split, inside⟩ := made_body (reads.rest.made g other)
    rw [split] at member
    rcases List.mem_append.mp member with glyph | behind
    · rw [opening.quote_glyphs quoted glyph] at split
      obtain ⟨n, first⟩ := List.mem_iff_getElem?.mp nested
      obtain ⟨m, second⟩ := List.mem_iff_getElem?.mp other
      have place := reads.same_holder first second opened (by simp [split])
      rw [place, second] at first
      obtain rfl := Option.some.inj first
      rw [split]
      rfl
    · exact absurd quoted (inside.notQuoted i behind)

private theorem unclosed_last (reads : d.Reads lexemes) (nested : f ∈ d.root :: d.root.nested)
    {span : Span} {items : List Node} (found : f.items[place]? = some (.form span items))
    (unclosed : ¬ d.Closed ⟨span, items⟩) : place + 1 = f.items.length := by
  have incomplete : ¬ Complete lexemes ⟨span, items⟩ :=
    fun complete => unclosed (reads.closed complete)
  rcases List.mem_cons.mp nested with rfl | inner
  · exact (reads.rest.form_last found).resolve_left incomplete
  · obtain ⟨next, glyphs, body, opening, split, inside⟩ := made_body (reads.rest.made f inner)
    rw [split] at found
    rcases getElem?_parts found with glyph | ⟨behind, rfl, within⟩
    · exact absurd (List.mem_of_getElem? glyph) (opening.not_form span items)
    · have last := (inside.form behind span items within).resolve_left incomplete
      rw [split, List.length_append, Nat.add_assoc, last]

private theorem chain (reads : d.Reads lexemes) (span : Span) (front : List Node) {top : Bool}
    {first : Nat} {items : List Node} (rest : Rest lexemes top first items) :
    ∀ f ∈ Node.formsOf items, ¬ d.Closed f → d.OpenChain ⟨span, front ++ items⟩ f := by
  -- The glyphs of a form stand in `front`, since a derivation only covers what is behind them.
  induction rest generalizing span front with
  | closed top first items read =>
    intro f member unclosed
    exact absurd (reads.closed (read.complete f member)) unclosed
  | unclosed top first i next items glyphs inner before opening inside ih =>
    intro f member unclosed
    have open_last := reads.unclosed (.intro i next glyphs inner opening inside)
    rcases opening.mem_forms member with earlier | rfl | deeper
    · exact absurd (reads.closed (before.complete f earlier)) unclosed
    · exact .last _ _ (by simp) unclosed
    · exact .step _ ⟨⟨i, lexemes.length⟩, glyphs ++ inner⟩ f (by simp) open_last
        (ih _ glyphs f deeper unclosed)

theorem shaped (reads : d.Reads lexemes) : d.Shaped where
  opens i left := reads.opens_unique ((reads.left i).mp left)
  left f nested place i found left := reads.left_opens nested found ((reads.left i).mp left)
  left_root i direct left := (reads.rest.plain i direct).notLeft ((reads.left i).mp left)
  right i right := reads.right_held ((reads.right i).mp right)
  right_last f nested place i found right := reads.right_last nested found ((reads.right i).mp right)
  quote q quote left touches f nested place opened :=
    reads.quote_first ((reads.quoted q).mpr ⟨quote, left, touches⟩) nested
      (List.mem_of_getElem? opened.2.1)
  glyphs f nested := reads.exists_opened nested
  unclosed f nested place span items found unclosed := by
    have last := reads.unclosed_last nested found unclosed
    exact ⟨last, d.not_closed found last⟩
  chain := reads.chain d.root.span [] reads.rest

end Reads

end Document

section Build

variable (native : String → Bool) (text : String)

theorem build_kind (i : Nat) (a : Atom) (found : (Document.build native text).atoms[i]? = some a) :
    ∃ kind, Nesting.kind? (Lexing.ofText text.toList).lexemes i = some kind ∧
      Grammar.HasKind a kind := by
  have kinds := (Lexing.ofText_lexes text.toList).hasKind 0 0 .origin
  rw [← Array.getElem?_toList, build_atoms] at found
  obtain ⟨bound, rfl⟩ := List.getElem?_eq_some_iff.mp found
  have inside := kinds.length_eq ▸ bound
  refine ⟨_, ?_, kinds.get bound inside⟩
  rw [Nesting.kind?, ← List.getElem?_map, ← extents_kind 0, List.getElem?_map,
    List.getElem?_eq_getElem inside]
  rfl

theorem build_passes (test : Atom → Bool) (kind : TokenKind) (i : Nat)
    (agrees : ∀ a other, Grammar.HasKind a other → test a = decide (other = kind)) :
    (Document.build native text).Passes test i ↔
      Nesting.kind? (Lexing.ofText text.toList).lexemes i = some kind := by
  constructor
  · rintro ⟨a, found, passes⟩
    obtain ⟨other, here, has⟩ := build_kind native text i a found
    rw [agrees a other has, decide_eq_true_iff] at passes
    rw [here, passes]
  · intro here
    have bound := Nesting.kind?_lt here
    rw [← build_size native text] at bound
    obtain ⟨other, there, has⟩ := build_kind native text i _ (Array.getElem?_eq_getElem bound)
    obtain rfl := Option.some.inj (there.symm.trans here)
    exact ⟨_, Array.getElem?_eq_getElem bound, by rw [agrees _ _ has, decide_eq_true rfl]⟩

theorem build_touches (i : Nat) : (Document.build native text).Touches i ↔
    (Lexing.ofText text.toList).lexemes[i + 1]?.map Lexeme.gap = some [] := by
  have atoms := build_atoms native text
  constructor
  · rintro ⟨a, b, first, second, touch⟩
    rw [← Array.getElem?_toList, atoms] at first second
    obtain ⟨lexeme, here, start⟩ := atomsFrom_next 0 .origin _ i a b first second
    rw [← touch, eq_comm, Position.advance_eq_self_iff] at start
    rw [here, Option.map_some, start]
  · intro touching
    obtain ⟨lexeme, here, empty⟩ := Option.map_eq_some_iff.mp touching
    have bound := (List.getElem?_eq_some_iff.mp here).1
    rw [← build_size native text] at bound
    have first := Array.getElem?_eq_getElem (show i < _ from Nat.lt_of_succ_lt bound)
    have second := Array.getElem?_eq_getElem bound
    refine ⟨_, _, first, second, ?_⟩
    rw [← Array.getElem?_toList, atoms] at first second
    obtain ⟨other, there, start⟩ := atomsFrom_next 0 .origin _ i _ _ first second
    obtain rfl := Option.some.inj (there.symm.trans here)
    rw [start, empty]
    rfl

theorem build_reads : (Document.build native text).Reads (Lexing.ofText text.toList).lexemes where
  rest := build_rest native text
  left i := build_passes native text _ _ i fun _ _ kind => kind.1
  right i := build_passes native text _ _ i fun _ _ kind => kind.2.1
  quoted i := by
    have quote := build_passes native text Atom.isQuote .quote i fun _ _ kind => kind.2.2.1
    have left := build_passes native text Atom.isLeftParen .leftParen (i + 1) fun _ _ kind => kind.1
    rw [Nesting.Quoted, quote, left, build_touches]

theorem build_shaped : (Document.build native text).Shaped :=
  (build_reads native text).shaped

end Build

end LispIndex
