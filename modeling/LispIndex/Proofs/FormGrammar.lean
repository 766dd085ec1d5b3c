import LispIndex.Form.Nesting

/-!
The grammar of forms, stated on the lexemes of a text. `Items` derives the items that a stretch of
lexemes makes, every form among them closed by its own parenthesis; `Rest` derives those up to the
end of the text, where one form may stay open in the last place, and another in it. Reading keeps
such derivations for every open form, so the items of a document have one.
-/

namespace LispIndex.Nesting

def kind? (lexemes : List Lexeme) (i : Nat) : Option TokenKind :=
  lexemes[i]?.map (·.token.kind)

def Quoted (lexemes : List Lexeme) (i : Nat) : Prop :=
  kind? lexemes i = some .quote ∧ kind? lexemes (i + 1) = some .leftParen ∧
    lexemes[i + 1]?.map Lexeme.gap = some []

inductive Opening (lexemes : List Lexeme) : Nat → Nat → List Node → Prop
  | plain (i : Nat) (left : kind? lexemes i = some .leftParen) :
      Opening lexemes i (i + 1) [.atom i]
  | quoted (i : Nat) (quoted : Quoted lexemes i) :
      Opening lexemes i (i + 2) [.atom i, .atom (i + 1)]

/-- An atom that neither opens nor closes a form. Outside of all forms (`top`) there is none that a
right parenthesis could close. -/
structure Plain (lexemes : List Lexeme) (top : Bool) (i : Nat) : Prop where
  inside : i < lexemes.length
  notLeft : kind? lexemes i ≠ some .leftParen
  notRight : top = false → kind? lexemes i ≠ some .rightParen
  notQuoted : ¬ Quoted lexemes i

/-- The items that the lexemes from `first` up to `stop` make. -/
inductive Items (lexemes : List Lexeme) : Bool → Nat → Nat → List Node → Prop
  | none (top : Bool) (first : Nat) : Items lexemes top first first []
  | atom (top : Bool) (first i : Nat) (items : List Node) (before : Items lexemes top first i items)
      (plain : Plain lexemes top i) : Items lexemes top first (i + 1) (items ++ [.atom i])
  | form (top : Bool) (first i next k : Nat) (items glyphs inner : List Node)
      (before : Items lexemes top first i items) (opening : Opening lexemes i next glyphs)
      (inside : Items lexemes false next k inner) (close : kind? lexemes k = some .rightParen) :
      Items lexemes top first (k + 1)
        (items ++ [.form ⟨i, k + 1⟩ (glyphs ++ inner ++ [.atom k])])

/-- The items that the lexemes from `first` on make, the last of them perhaps a form without end. -/
inductive Rest (lexemes : List Lexeme) : Bool → Nat → List Node → Prop
  | closed (top : Bool) (first : Nat) (items : List Node)
      (read : Items lexemes top first lexemes.length items) : Rest lexemes top first items
  | unclosed (top : Bool) (first i next : Nat) (items glyphs inner : List Node)
      (before : Items lexemes top first i items) (opening : Opening lexemes i next glyphs)
      (inside : Rest lexemes false next inner) :
      Rest lexemes top first (items ++ [.form ⟨i, lexemes.length⟩ (glyphs ++ inner)])

inductive Reading (lexemes : List Lexeme) : Nesting → Nat → Prop
  | top (items : List Node) (index : Nat) (read : Items lexemes true 0 index items.reverse) :
      Reading lexemes ⟨[], items⟩ index
  | inside (outer : List OpenForm) (top items glyphs inner : List Node) (first next index : Nat)
      (around : Reading lexemes ⟨outer, top⟩ first) (opening : Opening lexemes first next glyphs)
      (read : Items lexemes false next index inner) (split : items.reverse = glyphs ++ inner) :
      Reading lexemes ⟨⟨first, items⟩ :: outer, top⟩ index

inductive Ending (lexemes : List Lexeme) : Nesting → Prop
  | top (items : List Node) (rest : Rest lexemes true 0 items.reverse) : Ending lexemes ⟨[], items⟩
  | inside (outer : List OpenForm) (top items glyphs inner : List Node) (first next : Nat)
      (around : Reading lexemes ⟨outer, top⟩ first) (opening : Opening lexemes first next glyphs)
      (rest : Rest lexemes false next inner) (split : items.reverse = glyphs ++ inner) :
      Ending lexemes ⟨⟨first, items⟩ :: outer, top⟩

variable {lexemes : List Lexeme} {n : Nesting} {index : Nat}

namespace Reading

private theorem push (reading : Reading lexemes n index) (node : Node) (stop : Nat)
    (grow : ∀ first items, Items lexemes n.forms.isEmpty first index items →
      Items lexemes n.forms.isEmpty first stop (items ++ [node])) :
    Reading lexemes (n.push node) stop := by
  cases reading with
  | top items _ read =>
    refine .top (node :: items) stop ?_
    rw [List.reverse_cons]
    exact grow 0 items.reverse read
  | inside outer top items glyphs inner first next _ around opening read split =>
    refine .inside outer top (node :: items) glyphs (inner ++ [node]) first next stop around opening
      (grow next inner read) ?_
    rw [List.reverse_cons, split, List.append_assoc]

private theorem push_atom (reading : Reading lexemes n index)
    (plain : Plain lexemes n.forms.isEmpty index) :
    Reading lexemes (n.push (.atom index)) (index + 1) :=
  reading.push _ _ fun first items read => .atom _ first index items read plain

private theorem push_glyphs (reading : Reading lexemes n index) {next : Nat} {glyphs : List Node}
    (opening : Opening lexemes index next glyphs) :
    Reading lexemes ⟨⟨index, glyphs.reverse⟩ :: n.forms, n.top⟩ next :=
  .inside n.forms n.top glyphs.reverse glyphs [] index next next reading opening (.none false next)
    (by simp)

private theorem close (reading : Reading lexemes n index) (opened : n.forms ≠ [])
    (right : kind? lexemes index = some .rightParen) :
    Reading lexemes ((n.push (.atom index)).closeForm (index + 1)) (index + 1) := by
  cases reading with
  | top items _ read => exact absurd rfl opened
  | inside outer top items glyphs inner first next _ around opening read split =>
    have items_eq : (Node.atom index :: items).reverse = glyphs ++ inner ++ [.atom index] := by
      rw [List.reverse_cons, split]
    change Reading lexemes (Nesting.push ⟨outer, top⟩ (.form ⟨first, index + 1⟩
      (Node.atom index :: items).reverse)) (index + 1)
    rw [items_eq]
    exact around.push _ _ fun start before closed =>
      .form _ start first next index before glyphs inner closed opening read right

private theorem stray (reading : Reading lexemes n index) (top : n.forms = [])
    (inside : index < lexemes.length) (right : kind? lexemes index = some .rightParen) :
    Reading lexemes ((n.push (.atom index)).closeForm (index + 1)) (index + 1) := by
  have pushed := reading.push_atom ⟨inside, by simp [right], by simp [top], by simp [Quoted, right]⟩
  obtain ⟨forms, items⟩ := n
  obtain rfl : forms = [] := top
  exact pushed

theorem read (reading : Reading lexemes n index) (done rest : List Lexeme)
    (whole : lexemes = done ++ rest) (size : done.length = index) :
    Reading lexemes (n.read index rest) lexemes.length := by
  -- A step moves the lexemes it takes from `rest` to `done`, which `index` counts.
  fun_induction Nesting.read n index rest generalizing done with
  | case1 n index =>
    rw [whole, List.append_nil, size, ← whole.trans (List.append_nil done)]
    exact reading
  | case2 n index lexeme text rest quote ih =>
    have here : lexemes[index]? = some lexeme := by simp [whole, ← size]
    have next : lexemes[index + 1]? = some ⟨[], ⟨.leftParen, text⟩⟩ := by simp [whole, ← size]
    have quoted : Quoted lexemes index := by simp [Quoted, kind?, here, next, quote]
    exact ih (reading.push_glyphs (.quoted index quoted)) (done ++ [lexeme, _])
      (by rw [whole, List.append_assoc]; rfl) (by simp [size])
  | case3 n index lexeme rest left ih =>
    have here : lexemes[index]? = some lexeme := by simp [whole, ← size]
    have opening : Opening lexemes index (index + 1) [.atom index] :=
      .plain index (by simp [kind?, here, left])
    exact ih (reading.push_glyphs opening) (done ++ [lexeme]) (by simp [whole]) (by simp [size])
  | case4 n index lexeme rest right ih =>
    have here : lexemes[index]? = some lexeme := by simp [whole, ← size]
    have closing : kind? lexemes index = some .rightParen := by simp [kind?, here, right]
    refine ih ?_ (done ++ [lexeme]) (by simp [whole]) (by simp [size])
    by_cases top : n.forms = []
    · exact reading.stray top (List.getElem?_eq_some_iff.mp here).1 closing
    · exact reading.close top closing
  | case5 n index lexeme rest notQuoted notLeft notRight ih =>
    have here : lexemes[index]? = some lexeme := by simp [whole, ← size]
    -- A quote that touches a parenthesis has been read as the glyphs of a form.
    have alone : ¬ Quoted lexemes index := by
      rintro ⟨quote, left, touching⟩
      have next : lexemes[index + 1]? = rest[0]? := by
        rw [whole, ← size, List.getElem?_append_right (Nat.le_add_right _ 1),
          Nat.add_sub_cancel_left, List.getElem?_cons_succ]
      rw [kind?, next] at left
      rw [next] at touching
      cases rest with
      | nil => simp at left
      | cons after more =>
        obtain ⟨gap, kind, text⟩ := after
        simp [kind?, here] at quote left touching
        exact notQuoted text more quote (by rw [left, touching])
    refine ih (reading.push_atom ⟨(List.getElem?_eq_some_iff.mp here).1, ?_, ?_, alone⟩)
      (done ++ [lexeme]) (by simp [whole]) (by simp [size])
    · simpa [kind?, here] using notLeft
    · simpa [kind?, here] using fun _ => notRight

theorem ending (reading : Reading lexemes n lexemes.length) : Ending lexemes n := by
  cases reading with
  | top items _ read => exact .top items (.closed true 0 _ read)
  | inside outer top items glyphs inner first next _ around opening read split =>
    exact .inside outer top items glyphs inner first next around opening (.closed false next _ read)
      split

end Reading

theorem closeForm_length (n : Nesting) (stop : Nat) :
    (n.closeForm stop).forms.length = n.forms.length - 1 := by
  obtain ⟨forms, top⟩ := n
  match forms with
  | [] => rfl
  | [form] => rfl
  | form :: next :: outer => rfl

namespace Ending

theorem closeForm (ending : Ending lexemes n) : Ending lexemes (n.closeForm lexemes.length) := by
  cases ending with
  | top items rest => exact .top items rest
  | inside outer top items glyphs inner first next around opening rest split =>
    change Ending lexemes (Nesting.push ⟨outer, top⟩ (.form ⟨first, lexemes.length⟩ items.reverse))
    rw [split]
    cases around with
    | top found _ read =>
      refine .top _ ?_
      rw [List.reverse_cons]
      exact .unclosed true 0 first next _ glyphs inner read opening rest
    | inside outer top found marks before start follow _ around opened read parted =>
      refine .inside outer top _ marks _ start follow around opened
        (.unclosed false follow first next before glyphs inner read opening rest) ?_
      rw [List.reverse_cons, parted, List.append_assoc]

private theorem closeForms (ending : Ending lexemes n) (forms : List OpenForm)
    (size : n.forms.length = forms.length) :
    Rest lexemes true 0
      (forms.foldl (fun nesting _ => nesting.closeForm lexemes.length) n).top.reverse := by
  induction forms generalizing n with
  | nil =>
    cases ending with
    | top items rest => exact rest
    | inside => simp at size
  | cons form outer ih =>
    refine ih ending.closeForm ?_
    rw [closeForm_length, size, List.length_cons, Nat.add_sub_cancel]

end Ending

/-- The items of a document follow the grammar of forms. -/
theorem ofLexemes_rest (lexemes : List Lexeme) :
    Rest lexemes true 0 (Form.ofLexemes lexemes).items := by
  have start : Reading lexemes empty 0 := .top [] 0 (.none true 0)
  exact (start.read [] lexemes rfl rfl).ending.closeForms _ rfl

/-- Reading looks at the kinds of the tokens and at whether there are gaps between them. -/
theorem read_map {f : Lexeme → Lexeme} (kind : ∀ lexeme, (f lexeme).token.kind = lexeme.token.kind)
    (gap : ∀ lexeme, (f lexeme).gap = [] ↔ lexeme.gap = []) (n : Nesting) (index : Nat)
    (lexemes : List Lexeme) : n.read index (lexemes.map f) = n.read index lexemes := by
  fun_induction Nesting.read n index lexemes with
  | case1 n index => rfl
  | case2 n index lexeme text rest quote ih =>
    obtain ⟨other, next⟩ : ∃ other, f ⟨[], ⟨.leftParen, text⟩⟩ = ⟨[], ⟨.leftParen, other⟩⟩ := by
      have same := kind ⟨[], ⟨.leftParen, text⟩⟩
      have touching := (gap ⟨[], ⟨.leftParen, text⟩⟩).mpr rfl
      generalize f ⟨[], ⟨.leftParen, text⟩⟩ = image at same touching
      obtain ⟨_, _, other⟩ := image
      cases same
      cases touching
      exact ⟨other, rfl⟩
    rw [List.map_cons, List.map_cons, next,
      Nesting.read.eq_2 n index (f lexeme) other _ ((kind lexeme).trans quote), ih]
  | case3 n index lexeme rest left ih =>
    rw [List.map_cons, Nesting.read.eq_3 n index (f lexeme) _ ((kind lexeme).trans left), ih]
  | case4 n index lexeme rest right ih =>
    rw [List.map_cons, Nesting.read.eq_4 n index (f lexeme) _ ((kind lexeme).trans right), ih]
  | case5 n index lexeme rest notQuoted notLeft notRight ih =>
    rw [← kind] at notLeft notRight
    rw [List.map_cons, Nesting.read.eq_5 n index (f lexeme) _ notLeft notRight ?_, ih]
    intro text more quote front
    obtain ⟨next, others, rfl, here, -⟩ := List.map_eq_cons_iff.mp front
    have left := kind next
    have touching := gap next
    rw [here] at left touching
    obtain ⟨space, tokenKind, spelled⟩ := next
    obtain rfl : TokenKind.leftParen = tokenKind := left
    obtain rfl : space = [] := touching.mp rfl
    exact notQuoted spelled others ((kind lexeme).symm.trans quote) rfl

end LispIndex.Nesting

theorem LispIndex.Form.ofLexemes_map {f : Lexeme → Lexeme}
    (kind : ∀ lexeme, (f lexeme).token.kind = lexeme.token.kind)
    (gap : ∀ lexeme, (f lexeme).gap = [] ↔ lexeme.gap = []) (lexemes : List Lexeme) :
    ofLexemes (lexemes.map f) = ofLexemes lexemes := by
  rw [ofLexemes, Nesting.read_map kind gap, List.length_map]
  rfl
