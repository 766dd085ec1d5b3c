import LispIndex.Proofs.Placement

/-!
The grammar of tokens, stated on the characters of a text at their offsets. A text has exactly one
sequence of tokens with blanks between them, and lexing finds it. What kind of token an atom was
read as can be told from its symbol.
-/

namespace LispIndex

namespace Grammar

/-- Whether a backslash takes the character that follows this part of a string. -/
def escaping (part : List Char) : Bool :=
  part.foldl (fun active c => !active && c == '\\') false

def ClosesString (text : List Char) (start i : Nat) : Prop :=
  start < i ∧ text[i]? = some '\x22' ∧ escaping (text.extract (start + 1) i) = false

def ClosesBlock (text : List Char) (start i : Nat) : Prop :=
  start < i ∧ text[i]? = some '|' ∧ text[i + 1]? = some ';'

/-- Where a token stops that takes `width` characters at the first offset that closes it, and runs
to the end of the text if there is none. -/
def StopsBehind (closes : Nat → Prop) (width size stop : Nat) : Prop :=
  (∃ i, closes i ∧ (∀ j < i, ¬ closes j) ∧ stop = i + width) ∨ (∀ i, ¬ closes i) ∧ stop = size

/-- Where a token stops that runs up to the first offset that ends it, or to the end of the text. -/
def StopsBefore (ends : Nat → Prop) (start size stop : Nat) : Prop :=
  (∀ i, start ≤ i → i < stop → ¬ ends i) ∧ (stop = size ∨ ends stop)

def HoldsAt (text : List Char) (test : Char → Bool) (i : Nat) : Prop :=
  ∃ c, text[i]? = some c ∧ test c = true

def IsToken (text : List Char) (e : Extent) : Prop :=
  match e.kind with
  | .leftParen => text[e.start]? = some '(' ∧ e.stop = e.start + 1
  | .rightParen => text[e.start]? = some ')' ∧ e.stop = e.start + 1
  | .quote => text[e.start]? = some '\x27' ∧ e.stop = e.start + 1
  | .string => text[e.start]? = some '\x22' ∧
      StopsBehind (ClosesString text e.start) 1 text.length e.stop
  | .blockComment => text[e.start]? = some ';' ∧ text[e.start + 1]? = some '|' ∧
      StopsBehind (ClosesBlock text e.start) 2 text.length e.stop
  | .lineComment => text[e.start]? = some ';' ∧ text[e.start + 1]? ≠ some '|' ∧
      StopsBefore (HoldsAt text Token.isLineBreak) e.start text.length e.stop
  | .bare => (e.start = 0 ∨ HoldsAt text Token.isDelimiter (e.start - 1)) ∧
      StopsBefore (HoldsAt text Token.isDelimiter) e.start text.length e.stop

def Cuts (text : List Char) (cut : List Extent) : Prop :=
  Laid text 0 cut ∧ ∀ e ∈ cut, IsToken text e

theorem StopsBehind.unique {closes : Nat → Prop} {width size stop other : Nat}
    (first : StopsBehind closes width size stop) (second : StopsBehind closes width size other) :
    stop = other := by
  rcases first with ⟨i, closing, least, rfl⟩ | ⟨never, rfl⟩
  · rcases second with ⟨j, closed, smallest, rfl⟩ | ⟨never, rfl⟩
    · have low := smallest i
      have high := least j
      rcases Nat.lt_trichotomy i j with below | same | above
      · exact absurd closing (low below)
      · rw [same]
      · exact absurd closed (high above)
    · exact absurd closing (never i)
  · rcases second with ⟨j, closed, smallest, rfl⟩ | ⟨_, rfl⟩
    · exact absurd closed (never j)
    · rfl

private theorem StopsBefore.le {ends : Nat → Prop} {start size stop other : Nat}
    (after : start ≤ stop) (bound : other ≤ size) (first : StopsBefore ends start size stop)
    (second : StopsBefore ends start size other) : other ≤ stop := by
  rcases first.2 with whole | ended
  · omega
  · by_contra beyond
    exact second.1 stop after (by omega) ended

theorem StopsBefore.unique {ends : Nat → Prop} {start size stop other : Nat}
    (after : start ≤ stop) (bound : stop ≤ size) (later : start ≤ other) (limit : other ≤ size)
    (first : StopsBefore ends start size stop) (second : StopsBefore ends start size other) :
    stop = other :=
  Nat.le_antisymm (second.le later bound first) (first.le after limit second)

private theorem StopsBehind.shift {closes moved : Nat → Prop} {width size stop : Nat} (offset : Nat)
    (before : ∀ i < offset, ¬ moved i) (same : ∀ i, moved (offset + i) ↔ closes i)
    (stops : StopsBehind closes width size stop) :
    StopsBehind moved width (offset + size) (offset + stop) := by
  have split : ∀ i, moved i → ∃ j, i = offset + j ∧ closes j := by
    intro i holds
    have behind : offset ≤ i := Nat.le_of_not_lt fun less => before i less holds
    refine ⟨i - offset, by omega, (same _).mp ?_⟩
    rwa [Nat.add_sub_cancel' behind]
  rcases stops with ⟨i, closing, least, rfl⟩ | ⟨never, rfl⟩
  · refine .inl ⟨offset + i, (same i).mpr closing, ?_, by omega⟩
    intro k less holds
    obtain ⟨j, rfl, closed⟩ := split k holds
    exact least j (by omega) closed
  · refine .inr ⟨?_, rfl⟩
    intro k holds
    obtain ⟨j, rfl, closed⟩ := split k holds
    exact never j closed

def kindAt (text : List Char) (start : Nat) : TokenKind :=
  if text[start]? = some '(' then .leftParen
  else if text[start]? = some ')' then .rightParen
  else if text[start]? = some '\x27' then .quote
  else if text[start]? = some '\x22' then .string
  else if text[start]? = some ';' then
    if text[start + 1]? = some '|' then .blockComment else .lineComment
  else .bare

namespace IsToken

variable {text : List Char} {e other : Extent}

private theorem kind_eq (token : IsToken text e) (nonempty : e.start < e.stop) :
    e.kind = kindAt text e.start := by
  obtain ⟨kind, start, stop⟩ := e
  cases kind with
  | bare =>
    have plain : ¬ HoldsAt text Token.isDelimiter start := token.2.1 start (Nat.le_refl _) nonempty
    have other (c : Char) (delimiter : Token.isDelimiter c = true) : text[start]? ≠ some c :=
      fun found => plain ⟨c, found, delimiter⟩
    simp [kindAt, other _ (show Token.isDelimiter '(' = true by decide),
      other _ (show Token.isDelimiter ')' = true by decide),
      other _ (show Token.isDelimiter '\x27' = true by decide),
      other _ (show Token.isDelimiter '\x22' = true by decide),
      other _ (show Token.isDelimiter ';' = true by decide)]
  | leftParen | rightParen | quote | string | blockComment | lineComment =>
    simp_all [IsToken, kindAt]

private theorem not_blank (token : IsToken text e) (nonempty : e.start < e.stop) (c : Char)
    (found : text[e.start]? = some c) : Text.isBlank c = false := by
  obtain ⟨kind, start, stop⟩ := e
  cases kind with
  | bare =>
    have plain : ¬ HoldsAt text Token.isDelimiter start := token.2.1 start (Nat.le_refl _) nonempty
    by_contra blank
    refine plain ⟨c, found, ?_⟩
    simp only [Bool.not_eq_false] at blank
    simp [Token.isDelimiter, blank]
  | leftParen | rightParen | quote | string | blockComment | lineComment =>
    obtain rfl : c = _ := Option.some.inj (found.symm.trans token.1)
    decide

theorem unique (first : IsToken text e) (second : IsToken text other)
    (start : e.start = other.start) (nonempty : e.start < e.stop) (inside : e.stop ≤ text.length)
    (filled : other.start < other.stop) (within : other.stop ≤ text.length) : e = other := by
  have kind : e.kind = other.kind := by
    rw [first.kind_eq nonempty, second.kind_eq filled, start]
  obtain ⟨kind, start, stop⟩ := e
  obtain ⟨_, _, finish⟩ := other
  dsimp only at *
  subst kind start
  suffices stop = finish by rw [this]
  cases kind with
  | leftParen | rightParen | quote => exact first.2.trans second.2.symm
  | string => exact first.2.unique second.2
  | blockComment => exact first.2.2.unique second.2.2
  | lineComment => exact first.2.2.unique nonempty.le inside filled.le within second.2.2
  | bare => exact first.2.unique nonempty.le inside filled.le within second.2

end IsToken

private theorem blanks_le {text : List Char} {e : Extent} {first stop : Nat}
    (blanks : Blanks text first stop) (token : IsToken text e) (behind : first ≤ e.start)
    (nonempty : e.start < e.stop)
    (inside : e.stop ≤ text.length) : stop ≤ e.start := by
  have found := List.getElem?_eq_getElem (show e.start < text.length by omega)
  have filled := token.not_blank nonempty _ found
  by_contra early
  have blank := blanks e.start _ behind (by omega) found
  rw [filled] at blank
  contradiction

private theorem laid_unique {text : List Char} {cut others : List Extent} {offset : Nat}
    (laid : Laid text offset cut) (tokens : ∀ e ∈ cut, IsToken text e)
    (otherLaid : Laid text offset others) (otherTokens : ∀ e ∈ others, IsToken text e) :
    cut = others := by
  induction cut generalizing offset others with
  | nil =>
    cases others with
    | nil => rfl
    | cons f more =>
      obtain ⟨behind, -, filled, within, -⟩ := otherLaid
      have late := blanks_le laid (otherTokens f (by simp)) behind filled within
      omega
  | cons e rest ih =>
    obtain ⟨behind, blanks, nonempty, inside, laid⟩ := laid
    have token := tokens e (by simp)
    cases others with
    | nil =>
      have late := blanks_le otherLaid token behind nonempty inside
      omega
    | cons f more =>
      obtain ⟨otherBehind, otherBlanks, filled, within, otherLaid⟩ := otherLaid
      have otherToken := otherTokens f (by simp)
      have start : e.start = f.start :=
        Nat.le_antisymm (blanks_le blanks otherToken otherBehind filled within)
          (blanks_le otherBlanks token behind nonempty inside)
      obtain rfl := token.unique otherToken start nonempty inside filled within
      rw [ih laid (fun e member => tokens e (by simp [member])) otherLaid
        (fun e member => otherTokens e (by simp [member]))]

def QuoteAt (text : List Char) (i : Nat) : Prop :=
  text[i]? = some '\x22' ∧ escaping (text.take i) = false

def BarAt (text : List Char) (i : Nat) : Prop :=
  text[i]? = some '|' ∧ text[i + 1]? = some ';'

theorem getElem?_behind (front rest : List Char) (c : Char) (i : Nat) :
    (front ++ c :: rest)[front.length + 1 + i]? = rest[i]? := by
  rw [List.getElem?_append_right (by omega), Nat.add_assoc, Nat.add_sub_cancel_left, Nat.add_comm 1,
    List.getElem?_cons_succ]

theorem closesString_append (front rest : List Char) (c : Char) (i : Nat) :
    ClosesString (front ++ c :: rest) front.length (front.length + 1 + i) ↔ QuoteAt rest i := by
  have between : (front ++ c :: rest).extract (front.length + 1) (front.length + 1 + i) =
      rest.take i := by
    simp
  rw [ClosesString, QuoteAt, getElem?_behind, between]
  exact and_iff_right (by omega)

theorem closesBlock_append (front rest : List Char) (c : Char) (i : Nat) :
    ClosesBlock (front ++ c :: rest) front.length (front.length + 1 + i) ↔ BarAt rest i := by
  rw [ClosesBlock, BarAt, getElem?_behind, Nat.add_assoc _ i, getElem?_behind]
  exact and_iff_right (by omega)

theorem escaping_cons (c : Char) (part : List Char) (plain : c ≠ '\\') :
    escaping (c :: part) = escaping part := by
  have inactive : (c == '\\') = false := by simpa using plain
  simp [escaping, inactive]

private theorem escaping_backslash (c : Char) (part : List Char) :
    escaping ('\\' :: c :: part) = escaping part := by
  simp [escaping]

private theorem splitString_stops (seen text : List Char) :
    ∃ stop, StopsBehind (QuoteAt text) 1 text.length stop ∧
      (Token.splitString seen text).1.length = seen.length + stop := by
  fun_induction Token.splitString seen text with
  | case1 seen => exact ⟨0, .inr ⟨by simp [QuoteAt], rfl⟩, by simp⟩
  | case2 seen rest =>
    refine ⟨1, .inl ⟨0, ⟨rfl, rfl⟩, ?_, rfl⟩, by simp⟩
    intro j less
    omega
  | case3 seen c rest ih =>
    obtain ⟨stop, stops, size⟩ := ih
    refine ⟨2 + stop, ?_, by rw [size]; simp; omega⟩
    rw [show ('\\' :: c :: rest).length = 2 + rest.length by simp; omega]
    refine stops.shift 2 ?_ ?_
    · intro i less quote
      obtain rfl | rfl : i = 0 ∨ i = 1 := by omega
      · simp [QuoteAt] at quote
      · simp [QuoteAt, escaping] at quote
    · intro i
      rw [Nat.add_comm 2 i]
      simp [QuoteAt, escaping_backslash]
  | case4 seen c rest notQuote notEscape ih =>
    obtain ⟨stop, stops, size⟩ := ih
    refine ⟨1 + stop, ?_, by rw [size]; simp; omega⟩
    rw [List.length_cons, Nat.add_comm rest.length]
    refine stops.shift 1 ?_ ?_
    · intro i less quote
      obtain rfl : i = 0 := by omega
      exact notQuote (Option.some.inj quote.1)
    · intro i
      rw [Nat.add_comm 1 i]
      by_cases backslash : c = '\\'
      -- A backslash that takes no character is the last one of the text, and no quote follows it.
      · cases rest with
        | nil => simp [QuoteAt]
        | cons d more => exact (notEscape d more backslash rfl).elim
      · simp [QuoteAt, escaping_cons _ _ backslash]

private theorem splitBlock_stops (seen text : List Char) :
    ∃ stop, StopsBehind (BarAt text) 2 text.length stop ∧
      (Token.splitBlock seen text).1.length = seen.length + stop := by
  fun_induction Token.splitBlock seen text with
  | case1 seen => exact ⟨0, .inr ⟨by simp [BarAt], rfl⟩, by simp⟩
  | case2 seen rest =>
    refine ⟨2, .inl ⟨0, ⟨rfl, rfl⟩, ?_, rfl⟩, by simp⟩
    intro j less
    omega
  | case3 seen c rest notClosed ih =>
    obtain ⟨stop, stops, size⟩ := ih
    refine ⟨1 + stop, ?_, by rw [size]; simp; omega⟩
    rw [List.length_cons, Nat.add_comm rest.length]
    refine stops.shift 1 ?_ ?_
    · intro i less bar
      obtain rfl : i = 0 := by omega
      obtain ⟨first, second⟩ := bar
      cases rest with
      | nil => simp at second
      | cons d more =>
        simp only [List.getElem?_cons_zero, List.getElem?_cons_succ, Option.some.injEq,
          Nat.zero_add] at first second
        exact notClosed more first (by rw [second])
    · intro i
      rw [Nat.add_comm 1 i]
      simp [BarAt]

theorem head_dropWhile (test : Char → Bool) (text : List Char) (d : Char)
    (first : (text.dropWhile (!test ·)).head? = some d) : test d = true := by
  have stops := List.head?_dropWhile_not (!test ·) text
  rw [first] at stops
  simpa using stops

private theorem takeWhile_stops (test : Char → Bool) (front text : List Char) :
    StopsBefore (HoldsAt (front ++ text) test) front.length (front ++ text).length
      (front.length + (text.takeWhile (!test ·)).length) := by
  have joined := List.takeWhile_append_dropWhile (p := (!test ·)) (l := text)
  have first := head_dropWhile test text
  have fails : ∀ c ∈ text.takeWhile (!test ·), test c = false := fun c member => by
    simpa using List.mem_takeWhile_imp member
  generalize text.takeWhile (!test ·) = word at *
  generalize text.dropWhile (!test ·) = after at *
  subst joined
  constructor
  · rintro i low high ⟨c, found, passes⟩
    rw [List.getElem?_append_right low, List.getElem?_append_left (by omega)] at found
    rw [fails c (List.mem_of_getElem? found)] at passes
    contradiction
  · cases after with
    | nil => exact .inl (by simp)
    | cons d more => exact .inr ⟨d, by simp, first d rfl⟩

def Parted (before rest : List Char) : Prop :=
  ∀ c d, before.getLast? = some c → rest.head? = some d →
    Token.isDelimiter c = true ∨ Token.isDelimiter d = true

theorem Parted.nil (rest : List Char) : Parted [] rest := by
  intro c d last
  simp at last

private theorem Parted.of_last {before : List Char} {c : Char} (rest : List Char)
    (last : before.getLast? = some c) (delimiter : Token.isDelimiter c = true) :
    Parted before rest := by
  intro d _ found _
  obtain rfl : c = d := Option.some.inj (last.symm.trans found)
  exact .inl delimiter

private theorem Parted.of_first {rest : List Char} (before : List Char)
    (first : ∀ d, rest.head? = some d → Token.isDelimiter d = true) : Parted before rest :=
  fun _ d _ found => .inr (first d found)

theorem Parted.append {token rest : List Char} (before : List Char) (nonempty : token ≠ [])
    (parted : Parted token rest) : Parted (before ++ token) rest := by
  intro c d last first
  rw [List.getLast?_append_of_ne_nil _ nonempty] at last
  exact parted c d last first

theorem delimiter_of_blank {c : Char} (blank : Text.isBlank c = true) :
    Token.isDelimiter c = true := by
  simp [Token.isDelimiter, blank]

private theorem Parted.gap {before gap rest : List Char} (blanks : ∀ b ∈ gap, Text.isBlank b = true)
    (parted : Parted before (gap ++ rest)) : Parted (before ++ gap) rest := by
  rcases List.eq_nil_or_concat gap with rfl | ⟨init, b, rfl⟩
  · simpa using parted
  · exact .of_last (c := b) rest (by simp) (delimiter_of_blank (blanks b (by simp)))

private theorem splitString_parted (front seen text : List Char) :
    Parted (front ++ (Token.splitString seen text).1) (Token.splitString seen text).2 := by
  fun_induction Token.splitString seen text with
  | case1 seen => exact .of_first _ (by simp)
  | case2 seen rest => exact .of_last (c := '\x22') rest (by simp) (by decide)
  | case3 seen c rest ih => exact ih
  | case4 seen c rest _ _ ih => exact ih

private theorem splitBlock_parted (front seen text : List Char) :
    Parted (front ++ (Token.splitBlock seen text).1) (Token.splitBlock seen text).2 := by
  fun_induction Token.splitBlock seen text with
  | case1 seen => exact .of_first _ (by simp)
  | case2 seen rest => exact .of_last (c := ';') rest (by simp) (by decide)
  | case3 seen c rest _ ih => exact ih

private theorem delimiter_of_lineBreak {c : Char} (lineBreak : Token.isLineBreak c = true) :
    Token.isDelimiter c = true := by
  simp only [Token.isLineBreak, Bool.or_eq_true, beq_iff_eq] at lineBreak
  rcases lineBreak with rfl | rfl <;> decide

private theorem splitComment_parted (rest : List Char) :
    Parted (Token.splitComment rest).1.text (Token.splitComment rest).2 := by
  unfold Token.splitComment
  split
  · exact splitBlock_parted [';'] [] _
  · exact .of_first _ fun d first => delimiter_of_lineBreak (head_dropWhile _ _ d first)

private theorem split_parted (c : Char) (rest : List Char) :
    Parted (Token.split c rest).1.text (Token.split c rest).2 := by
  unfold Token.split
  split_ifs with left right quote string comment
  · exact .of_last rest rfl (by rw [left]; decide)
  · exact .of_last rest rfl (by rw [right]; decide)
  · exact .of_last rest rfl (by rw [quote]; decide)
  · exact splitString_parted [c] [] rest
  · exact splitComment_parted rest
  · exact .of_first _ fun d first => head_dropWhile _ _ d first

theorem getElem?_start (front rest : List Char) (c : Char) :
    (front ++ c :: rest)[front.length]? = some c := by
  simp

theorem StopsBehind.token {closes moved : Nat → Prop} {width : Nat} {front rest body : List Char}
    (c : Char) (after : ∀ i, moved i → front.length < i)
    (same : ∀ i, moved (front.length + 1 + i) ↔ closes i)
    (stops : StopsBehind closes width rest.length body.length) :
    StopsBehind moved width (front ++ c :: rest).length (front.length + (c :: body).length) := by
  have before : ∀ i < front.length + 1, ¬ moved i := by
    intro i less closed
    have beyond := after i closed
    omega
  have behind := stops.shift (front.length + 1) before same
  rw [List.length_append, List.length_cons, List.length_cons]
  rwa [Nat.add_assoc, Nat.add_comm 1, Nat.add_assoc, Nat.add_comm 1] at behind

private theorem splitComment_isToken (front rest : List Char) :
    IsToken (front ++ ';' :: rest) ⟨(Token.splitComment rest).1.kind, front.length,
      front.length + (Token.splitComment rest).1.text.length⟩ := by
  unfold Token.splitComment
  split
  next rest =>
    obtain ⟨stop, stops, size⟩ := splitBlock_stops [] ('|' :: rest)
    rw [List.length_nil, Nat.zero_add] at size
    rw [← size] at stops
    exact ⟨getElem?_start _ _ _, getElem?_behind _ _ _ 0,
      stops.token ';' (fun _ closes => closes.1) (closesBlock_append front ('|' :: rest) ';')⟩
  next notBar =>
    have run := takeWhile_stops Token.isLineBreak front (';' :: rest)
    refine ⟨getElem?_start _ _ _, ?_, ?_⟩
    · intro bar
      rw [getElem?_behind _ _ _ 0] at bar
      cases rest with
      | nil => simp at bar
      | cons d more => exact notBar more (by simpa using bar)
    · simpa [List.takeWhile_cons, Token.isLineBreak] using run

private theorem split_isToken (front rest : List Char) (c : Char) (start : Text.isBlank c = false)
    (parted : Parted front (c :: rest)) :
    IsToken (front ++ c :: rest) ⟨(Token.split c rest).1.kind, front.length,
      front.length + (Token.split c rest).1.text.length⟩ := by
  unfold Token.split
  split_ifs with left right quote string comment
  · exact ⟨by rw [getElem?_start, left], rfl⟩
  · exact ⟨by rw [getElem?_start, right], rfl⟩
  · exact ⟨by rw [getElem?_start, quote], rfl⟩
  · obtain ⟨stop, stops, size⟩ := splitString_stops [] rest
    rw [List.length_nil, Nat.zero_add] at size
    rw [← size] at stops
    exact ⟨by rw [getElem?_start, string],
      stops.token c (fun _ closes => closes.1) (closesString_append front rest c)⟩
  · subst comment
    exact splitComment_isToken front rest
  · have plain : Token.isDelimiter c = false := by
      simp [Token.isDelimiter, *]
    have run := takeWhile_stops Token.isDelimiter front (c :: rest)
    refine ⟨?_, by simpa [List.takeWhile_cons, plain] using run⟩
    rcases List.eq_nil_or_concat front with rfl | ⟨init, d, rfl⟩
    · exact .inl rfl
    -- A symbol that went on from before would not be parted from it.
    · right
      have delimiter := parted d c (by simp) rfl
      rw [plain] at delimiter
      exact ⟨d, by simp, delimiter.resolve_right Bool.false_ne_true⟩

def HasKind (a : Atom) (kind : TokenKind) : Prop :=
  a.isLeftParen = decide (kind = .leftParen) ∧ a.isRightParen = decide (kind = .rightParen) ∧
    a.isQuote = decide (kind = .quote) ∧ a.isString = decide (kind = .string) ∧
    a.isBlockComment = decide (kind = .blockComment) ∧
    a.isLineComment = decide (kind = .lineComment)

private theorem ofList_beq (c : Char) (more : List Char) {word : String} {d : Char}
    (single : word.toList = [d]) :
    (String.ofList (c :: more) == word) = (c == d && more.isEmpty) := by
  rw [Bool.eq_iff_iff, beq_iff_eq, ← String.toList_inj, String.toList_ofList, single]
  simp

theorem hasKind_iff (c : Char) (more : List Char) (place : Position) (index : Nat)
    (kind : TokenKind) :
    HasKind { symbol := String.ofList (c :: more), start := place, index } kind ↔
      (c == '(' && more.isEmpty) = decide (kind = .leftParen) ∧
      (c == ')' && more.isEmpty) = decide (kind = .rightParen) ∧
      (c == '\x27' && more.isEmpty) = decide (kind = .quote) ∧
      ('\x22' == c) = decide (kind = .string) ∧
      (';' == c && ['|'].isPrefixOf more) = decide (kind = .blockComment) ∧
      (';' == c && !(';' == c && ['|'].isPrefixOf more)) = decide (kind = .lineComment) := by
  -- The tests look at no more than two characters of the symbol and at whether there are others.
  have comment : [';'].isPrefixOf (c :: more) = (';' == c) := by
    rw [List.isPrefixOf_cons_cons, List.isPrefixOf_nil_left, Bool.and_true]
  have string : ['\x22'].isPrefixOf (c :: more) = ('\x22' == c) := by
    rw [List.isPrefixOf_cons_cons, List.isPrefixOf_nil_left, Bool.and_true]
  simp only [HasKind, Atom.isLeftParen, Atom.isRightParen, Atom.isQuote, Atom.isString,
    Atom.isBlockComment, Atom.isLineComment, Atom.isComment, String.toList_ofList, comment, string,
    List.isPrefixOf_cons_cons, ofList_beq c more (show "(".toList = ['('] by rfl),
    ofList_beq c more (show ")".toList = [')'] by rfl),
    ofList_beq c more (show "\x27".toList = ['\x27'] by rfl)]

theorem splitBlock_bar (rest : List Char) :
    ∃ more, (Token.splitBlock [] ('|' :: rest)).1 = '|' :: more := by
  obtain ⟨stop, stops, size⟩ := splitBlock_stops [] ('|' :: rest)
  have joined := Token.splitBlock_append [] ('|' :: rest)
  cases body : (Token.splitBlock [] ('|' :: rest)).1 with
  | nil =>
    rw [body, List.length_nil, Nat.zero_add] at size
    rcases stops with ⟨i, -, -, behind⟩ | ⟨-, whole⟩
    · omega
    · rw [List.length_cons] at whole
      omega
  | cons d more =>
    rw [body] at joined
    exact ⟨more, by rw [(List.cons.inj joined).1]⟩

private theorem splitComment_hasKind (rest : List Char) (place : Position) (index : Nat) :
    HasKind { symbol := String.ofList (Token.splitComment rest).1.text, start := place, index }
      (Token.splitComment rest).1.kind := by
  unfold Token.splitComment
  split
  next rest =>
    obtain ⟨more, body⟩ := splitBlock_bar rest
    rw [hasKind_iff, body]
    simp
  next notBar =>
    have plain : ['|'].isPrefixOf (rest.takeWhile (!Token.isLineBreak ·)) = false := by
      cases rest with
      | nil => rfl
      | cons d more =>
        have other : '|' ≠ d := fun same => notBar more (by rw [same])
        by_cases stops : Token.isLineBreak d = true
        · simp [stops]
        · simp [stops, List.isPrefixOf_cons_cons, other]
    rw [hasKind_iff]
    simp [plain]

theorem split_hasKind (c : Char) (rest : List Char) (place : Position) (index : Nat) :
    HasKind { symbol := String.ofList (Token.split c rest).1.text, start := place, index }
      (Token.split c rest).1.kind := by
  unfold Token.split
  split_ifs with left right quote string comment
  · rw [hasKind_iff]
    simp [left]
  · rw [hasKind_iff]
    simp [right]
  · rw [hasKind_iff]
    simp [quote]
  · rw [hasKind_iff]
    simp [string]
  · exact splitComment_hasKind rest place index
  · rw [hasKind_iff]
    simp [left, right, quote, Ne.symm string, Ne.symm comment]

end Grammar

namespace Lexes

variable {text tail : List Char} {lexemes : List Lexeme}

private theorem tokens (lexes : Lexes text lexemes tail) (before : List Char)
    (parted : Grammar.Parted before text) :
    ∀ e ∈ extents before.length lexemes, Grammar.IsToken (before ++ text) e := by
  induction lexes generalizing before with
  | blank => simp [extents]
  | token gap c rest lexemes tail blanks start more ih =>
    obtain ⟨others, whole⟩ := Token.split_text c rest
    have here := Grammar.split_isToken (before ++ gap) rest c start (parted.gap blanks)
    have next := ih (before ++ gap ++ (Token.split c rest).1.text)
      (.append _ (by simp [whole]) (Grammar.split_parted c rest))
    rw [← token_text] at next
    simp only [List.length_append] at here next
    rw [List.append_assoc] at here
    intro e member
    rcases List.mem_cons.mp member with rfl | later
    · exact here
    · exact next e later

theorem hasKind (lexes : Lexes text lexemes tail) (index offset : Nat) (start : Position) :
    List.Forall₂ (fun a e => Grammar.HasKind a e.kind) (atomsFrom index start lexemes)
      (extents offset lexemes) := by
  induction lexes generalizing index offset start with
  | blank => exact .nil
  | token gap c rest lexemes tail blanks _ more ih =>
    exact .cons (Grammar.split_hasKind c rest _ index) (ih _ _ _)

end Lexes

theorem extents_kind (offset : Nat) (lexemes : List Lexeme) :
    (extents offset lexemes).map Extent.kind = lexemes.map (·.token.kind) := by
  induction lexemes generalizing offset with
  | nil => rfl
  | cons lexeme rest ih => rw [extents, List.map_cons, List.map_cons, ih]

/-- The atoms of a document are the one sequence of tokens that its text has, and the tests on an
atom tell the kind it was read as. -/
theorem build_tokens_unique (native : String → Bool) (text : String) :
    ∃ cut, Grammar.Cuts text.toList cut ∧
      (∀ others, Grammar.Cuts text.toList others → others = cut) ∧
      cut.map Extent.kind = (Lexing.ofText text.toList).lexemes.map (·.token.kind) ∧
      List.Forall₂ (fun a e => a.symbol = String.ofList (text.toList.extract e.start e.stop) ∧
        Grammar.HasKind a e.kind) (Document.build native text).atoms.toList cut := by
  have lexes := Lexing.ofText_lexes text.toList
  have laid := lexes.laid []
  have tokens := lexes.tokens [] (.nil _)
  refine ⟨extents 0 (Lexing.ofText text.toList).lexemes, ⟨laid, tokens⟩, ?_, extents_kind _ _, ?_⟩
  · intro others ⟨otherLaid, otherTokens⟩
    exact Grammar.laid_unique otherLaid otherTokens laid tokens
  · rw [build_atoms]
    exact .mp (fun a e placed kind => ⟨placed.1, kind⟩) (lexes.placed [] 0)
      (lexes.hasKind 0 0 .origin)

end LispIndex
