import LispIndex.Json
import Mathlib.Data.List.Chain
import Mathlib.Tactic.SplitIfs

/-!
JSON as it is written and read. The characters of a token are read as that token, tokens that are
written one after the other are found again, and the tokens of a value give the value back.
-/

namespace LispIndex.Json

namespace Decimal

def Written (d : Decimal) : Prop :=
  ∀ digits ∈ d.fraction, digits ≠ [] ∧ ∀ c ∈ digits, c.isDigit = true

def fractionChars : Option (List Char) → List Char
  | some digits => '.' :: digits
  | none => []

def exponentChars : Option Int → List Char
  | some e => 'e' :: (toString e).toList
  | none => []

private theorem toList_toString (n : Nat) : (toString n).toList = Nat.toDigits 10 n := by
  rw [Nat.toString_eq_repr, Nat.toList_repr]

private theorem chars_eq (d : Decimal) :
    d.chars = (if d.negative then ['-'] else []) ++ (Nat.toDigits 10 d.whole ++
      (fractionChars d.fraction ++ exponentChars d.exponent)) := by
  obtain ⟨negative, whole, fraction, exponent⟩ := d
  rw [chars, toList_toString, List.append_assoc, List.append_assoc]
  cases fraction <;> cases exponent <;> rfl

private theorem natOfDigits_toDigits (n : Nat) : natOfDigits (Nat.toDigits 10 n) = n :=
  Nat.ofDigitChars_toDigits (by decide) (by decide)

private theorem isDigit_toDigits (n : Nat) : ∀ c ∈ Nat.toDigits 10 n, c.isDigit = true := by
  intro c member
  exact Nat.isDigit_of_mem_toDigits (by decide) (by decide) member

theorem toDigits_cons (n : Nat) :
    ∃ c more, Nat.toDigits 10 n = c :: more ∧ c.isDigit = true := by
  obtain ⟨c, more, front⟩ := List.exists_cons_of_ne_nil (Nat.toDigits_ne_nil (n := n) (b := 10))
  exact ⟨c, more, front, isDigit_toDigits n c (by simp [front])⟩

private theorem toDigits_front (n : Nat) (positive : n ≠ 0) :
    ∃ c more, Nat.toDigits 10 n = c :: more ∧ c ≠ '0' := by
  induction n using Nat.strongRecOn with
  | ind n ih =>
    by_cases small : n < 10
    · have digits : ∀ m < 10, m ≠ 0 → m.digitChar ≠ '0' := by decide
      rw [Nat.toDigits_of_lt_base small]
      exact ⟨n.digitChar, [], rfl, digits n small positive⟩
    · obtain ⟨c, more, front, other⟩ := ih (n / 10) (by omega) (by omega)
      rw [Nat.toDigits_of_base_le (by decide) (by omega), front]
      exact ⟨c, more ++ [(n % 10).digitChar], rfl, other⟩

end Decimal

namespace Token

open Decimal

section Numbers

def Stops (text : List Char) : Prop :=
  ∀ c ∈ text.head?, c.isDigit = false ∧ c ≠ '.' ∧ c ≠ 'e' ∧ c ≠ 'E'

variable {digits rest : List Char}

private theorem digits_whole (all : ∀ c ∈ digits, c.isDigit = true)
    (ends : ∀ c ∈ rest.head?, c.isDigit = false) :
    (digits ++ rest).takeWhile Char.isDigit = digits ∧
      (digits ++ rest).dropWhile Char.isDigit = rest := by
  rw [List.takeWhile_append_of_pos all, List.dropWhile_append_of_pos all]
  cases rest with
  | nil => simp
  | cons c more =>
    have other := ends c rfl
    simp [other]

private theorem readExponent_digits (n : Nat) (ends : ∀ c ∈ rest.head?, c.isDigit = false)
    {text : List Char} (unsigned : dropSign text = Nat.toDigits 10 n ++ rest) :
    readExponent text = some (if ['-'].isPrefixOf text then -(n : Int) else n, rest) := by
  obtain ⟨taken, left⟩ := digits_whole (isDigit_toDigits n) ends
  have filled : (Nat.toDigits 10 n).isEmpty = false := by
    simp [Nat.toDigits_ne_nil]
  rw [readExponent, unsigned, taken, left, filled, natOfDigits_toDigits]
  rfl

private theorem readExponent_toString (e : Int) (ends : ∀ c ∈ rest.head?, c.isDigit = false) :
    readExponent ((toString e).toList ++ rest) = some (e, rest) := by
  cases e with
  | ofNat n =>
    obtain ⟨c, more, front, digit⟩ := toDigits_cons n
    have plus : c ≠ '+' := by rintro rfl; cases digit
    have minus : c ≠ '-' := by rintro rfl; cases digit
    have unsigned : dropSign (Nat.toDigits 10 n ++ rest) = Nat.toDigits 10 n ++ rest := by
      rw [front, List.cons_append]
      unfold dropSign
      split <;> simp_all
    change readExponent ((toString n).toList ++ rest) = _
    rw [toList_toString, readExponent_digits n ends unsigned, front]
    simp [minus.symm]
  | negSucc n =>
    have text : (toString (Int.negSucc n)).toList = '-' :: Nat.toDigits 10 (n + 1) := by
      rw [← Nat.toList_repr]
      exact String.toList_append
    rw [text, List.cons_append, readExponent_digits (n + 1) ends rfl]
    rfl

private theorem readScaled_exponent (number : Decimal) (exponent : Option Int)
    (bare : number.exponent = none) (stops : Stops rest) :
    readScaled number (exponentChars exponent ++ rest) =
      some (.number { number with exponent }, rest) := by
  cases exponent with
  | some e =>
    have read := readExponent_toString e fun c first => (stops c first).1
    rw [exponentChars, List.cons_append, readScaled, if_pos (.inl rfl), read]
    rfl
  | none =>
    have same : { number with exponent := none } = number := by rw [← bare]
    rw [exponentChars, List.nil_append, same]
    cases rest with
    | nil => rfl
    | cons c more =>
      obtain ⟨-, -, small, large⟩ := stops c rfl
      rw [readScaled, if_neg (by simp [small, large])]

private theorem exponentChars_ends (exponent : Option Int) (stops : Stops rest) :
    ∀ c ∈ (exponentChars exponent ++ rest).head?, c.isDigit = false ∧ c ≠ '.' := by
  cases exponent with
  | some e =>
    rintro c ⟨⟩
    decide
  | none => exact fun c first => ⟨(stops c first).1, (stops c first).2.1⟩

private theorem readPoint_chars (d : Decimal) (written : d.Written) (stops : Stops rest) :
    readPoint d.negative d.whole (fractionChars d.fraction ++ (exponentChars d.exponent ++ rest)) =
      some (.number d, rest) := by
  obtain ⟨negative, whole, fraction, exponent⟩ := d
  have ends := exponentChars_ends exponent stops
  cases fraction with
  | some digits =>
    obtain ⟨filled, all⟩ := written digits rfl
    obtain ⟨taken, left⟩ := digits_whole all fun c first => (ends c first).1
    rw [fractionChars, List.cons_append, readPoint]
    dsimp only
    rw [taken, left, List.isEmpty_eq_false_iff.mpr filled, if_neg Bool.false_ne_true,
      readScaled_exponent _ exponent rfl stops]
  | none =>
    rw [fractionChars, List.nil_append]
    unfold readPoint
    split
    next more front =>
      have point := ends '.' (by rw [front]; rfl)
      exact absurd rfl point.2
    next => rw [readScaled_exponent _ exponent rfl stops]

private theorem fractionChars_ends (fraction : Option (List Char)) (exponent : Option Int)
    (stops : Stops rest) :
    ∀ c ∈ (fractionChars fraction ++ (exponentChars exponent ++ rest)).head?,
      c.isDigit = false := by
  cases fraction with
  | some digits =>
    rintro c ⟨⟩
    decide
  | none => exact fun c first => (exponentChars_ends exponent stops c first).1

private theorem readNumber_chars (d : Decimal) (written : d.Written) (stops : Stops rest) :
    readNumber d.negative (Nat.toDigits 10 d.whole ++ (fractionChars d.fraction ++
      (exponentChars d.exponent ++ rest))) = some (.number d, rest) := by
  have read := readPoint_chars d written stops
  -- Behind a zero in front no further digits are read, so only zero may be written with one.
  by_cases zero : d.whole = 0
  · rw [zero] at read ⊢
    exact read
  · obtain ⟨c, more, front, other⟩ := toDigits_front d.whole zero
    have all := isDigit_toDigits d.whole
    rw [front] at all
    obtain ⟨digit, others⟩ := List.forall_mem_cons.mp all
    obtain ⟨taken, left⟩ :=
      digits_whole others (fractionChars_ends d.fraction d.exponent stops)
    rw [front, List.cons_append, readNumber.eq_3 _ _ _ (by simpa using other), if_pos digit, taken,
      left, ← front, natOfDigits_toDigits, read]

private theorem split?_digit {c : Char} (digit : c.isDigit = true) (rest : List Char) :
    split? (c :: rest) = readNumber false (c :: rest) := by
  have other (d : Char) (sign : d.isDigit = false) : c ≠ d := by
    rintro rfl
    rw [sign] at digit
    cases digit
  have unmarked : mark? c = none := by
    unfold mark?
    split
    case h_7 => rfl
    all_goals exact absurd rfl (other _ rfl)
  rw [split?, unmarked]
  dsimp only
  rw [if_neg (other _ rfl), if_neg (other _ rfl), if_pos digit]

end Numbers

section Texts

private theorem hexValue?_hexDigit : ∀ n < 16, hexValue? (hexDigit n) = some n := by
  decide

private theorem readCodes_escape (seen : List Nat) (c : Char) (rest : List Char) :
    readCodes seen (escape c ++ rest) = readCodes (c.toNat :: seen) rest := by
  unfold escape
  split_ifs with quote backslash backspace tab newline feed carriage control
  · rw [quote]
    rfl
  · rw [backslash]
    rfl
  · rw [backspace]
    rfl
  · rw [tab]
    rfl
  · rw [newline]
    rfl
  · rw [feed]
    rfl
  · rw [carriage]
    rfl
  · have code : hexCode? '0' '0' (hexDigit (c.toNat / 16)) (hexDigit (c.toNat % 16)) =
        some c.toNat := by
      have high := hexValue?_hexDigit (c.toNat / 16) (by omega)
      have low := hexValue?_hexDigit (c.toNat % 16) (by omega)
      have zero : hexValue? '0' = some 0 := rfl
      simp only [hexCode?, high, low, zero, Option.bind_eq_bind, Option.bind_some, Option.pure_def]
      congr 1
      omega
    simp only [List.cons_append, List.nil_append, readCodes, code]
  · simp [readCodes, backslash, control]

private theorem readCodes_quoted (seen : List Nat) (text rest : List Char) :
    readCodes seen (text.flatMap escape ++ '\x22' :: rest) =
      some (seen.reverse ++ text.map Char.toNat, rest) := by
  induction text generalizing seen with
  | nil => simp [readCodes]
  | cons c text ih =>
    rw [List.flatMap_cons, List.append_assoc, readCodes_escape, ih]
    simp

private theorem decode_toNat (seen text : List Char) :
    decode seen (text.map Char.toNat) = some (seen.reverse ++ text) := by
  -- The codes of characters leave out the surrogates, so that each code stands for itself.
  have single (c : Char) : isHighSurrogate c.toNat = false ∧ isLowSurrogate c.toNat = false := by
    have valid : c.toNat < 0xD800 ∨ 0xDFFF < c.toNat ∧ c.toNat < 0x110000 := c.valid
    simp only [isHighSurrogate, isLowSurrogate, Bool.and_eq_false_iff, decide_eq_false_iff_not]
    omega
  induction text generalizing seen with
  | nil => simp [decode]
  | cons c text ih =>
    obtain ⟨high, low⟩ := single c
    cases text with
    | nil => simp [decode, high, low]
    | cons next more =>
      rw [List.map_cons, List.map_cons, decode, high, low, if_neg Bool.false_ne_true,
        if_neg Bool.false_ne_true, Char.ofNat_toNat, ← List.map_cons, ih]
      simp

private theorem readText_quoted (value : String) (rest : List Char) :
    readText (value.toList.flatMap escape ++ '\x22' :: rest) = some (.text (some value), rest) := by
  rw [readText, readCodes_quoted, Option.map_some]
  dsimp only
  rw [List.reverse_nil, List.nil_append, decode_toNat, List.reverse_nil, List.nil_append,
    Option.map_some, String.ofList_toList]

end Texts

def isNumber : Token → Bool
  | .number _ => true
  | _ => false

def Written : Token → Prop
  | .number value => value.Written
  | _ => True

/-- A token is read from what is written for it, as long as no number runs into what follows. -/
theorem split?_chars (token : Token) (written : token.Written) (rest : List Char)
    (stops : token.isNumber = true → Stops rest) :
    split? (token.chars ++ rest) = some (token, rest) := by
  cases token with
  | number value =>
    have read := readNumber_chars value written (stops rfl)
    rw [chars, chars_eq, List.append_assoc, List.append_assoc, List.append_assoc]
    obtain ⟨c, more, front, digit⟩ := toDigits_cons value.whole
    cases sign : value.negative with
    | true =>
      rw [sign] at read
      exact read
    | false =>
      rw [sign, front, List.cons_append] at read
      rw [if_neg Bool.false_ne_true, List.nil_append, front, List.cons_append, split?_digit digit,
        read]
  | text value =>
    cases value with
    | some value =>
      rw [chars, quote, List.cons_append, List.append_assoc]
      exact readText_quoted value rest
    | none => rfl
  | bool value => cases value <;> rfl
  | _ => rfl

private theorem chars_front (token : Token) :
    ∃ c more, token.chars = c :: more ∧ isSpace c = false ∧
    (token.isNumber = false → c.isDigit = false ∧ c ≠ '.' ∧ c ≠ 'e' ∧ c ≠ 'E') := by
  cases token with
  | number value =>
    obtain ⟨c, more, front, digit⟩ := toDigits_cons value.whole
    have solid : isSpace c = false := by
      rw [Bool.eq_false_iff]
      intro space
      simp only [isSpace, Bool.or_eq_true, beq_iff_eq] at space
      rcases space with ((rfl | rfl) | rfl) | rfl <;> cases digit
    rw [chars, chars_eq]
    cases value.negative with
    | true => exact ⟨'-', _, rfl, rfl, nofun⟩
    | false => exact ⟨c, _, by rw [front]; rfl, solid, nofun⟩
  | text value => cases value <;> exact ⟨_, _, rfl, rfl, fun _ => by decide⟩
  | bool value => cases value <;> exact ⟨_, _, rfl, rfl, fun _ => by decide⟩
  | _ => exact ⟨_, _, rfl, rfl, fun _ => by decide⟩

def Parts (token next : Token) : Prop :=
  token.isNumber = false ∨ next.isNumber = false

/-- Tokens of which no two numbers are neighbours are read as they are written. -/
theorem readAll_chars (found : Array Token) (tokens : List Token) (parted : tokens.IsChain Parts)
    (written : ∀ token ∈ tokens, token.Written) :
    readAll found (tokens.flatMap chars) = some (found.toList ++ tokens) := by
  induction tokens generalizing found with
  | nil =>
    rw [List.flatMap_nil, readAll]
    simp
  | cons token rest ih =>
    obtain ⟨here, later⟩ := List.forall_mem_cons.mp written
    have stops : token.isNumber = true → Stops (rest.flatMap chars) := by
      intro number
      cases rest with
      | nil => exact nofun
      | cons next more =>
        have apart := (List.isChain_cons_cons.mp parted).1.resolve_left (by simp [number])
        obtain ⟨c, others, front, -, other⟩ := chars_front next
        rw [List.flatMap_cons, front]
        rintro d ⟨⟩
        exact other apart
    obtain ⟨c, more, front, solid, -⟩ := chars_front token
    have read := split?_chars token here (rest.flatMap chars) stops
    have text : (token.chars ++ rest.flatMap chars).dropWhile isSpace =
        c :: (more ++ rest.flatMap chars) := by
      rw [front, List.cons_append, List.dropWhile_cons_of_neg (by simp [solid])]
    rw [front, List.cons_append] at read
    rw [List.flatMap_cons, readAll]
    split
    next blank => rw [text] at blank; cases blank
    next d others blank =>
      rw [text] at blank
      obtain ⟨rfl, rfl⟩ := List.cons.inj blank
      split
      next none => rw [read] at none; cases none
      next again after same =>
        rw [read] at same
        obtain ⟨rfl, rfl⟩ := Prod.mk.inj (Option.some.inj same)
        rw [ih _ parted.tail later]
        simp

theorem isChain_mark (front : List Token) {rest : List Token} {mark : Token}
    (plain : mark.isNumber = false) (before : front.IsChain Parts) (after : rest.IsChain Parts) :
    (front ++ mark :: rest).IsChain Parts := by
  rw [List.isChain_append]
  refine ⟨before, ?_, ?_⟩
  · rw [List.isChain_cons]
    exact ⟨fun next _ => .inl plain, after⟩
  · rintro token _ next ⟨⟩
    exact .inr plain

end Token

section Values

open Token

mutual

private theorem tokens_parted : (value : Json) → value.tokens.IsChain Parts
  | .null => List.isChain_singleton _
  | .bool _ => List.isChain_singleton _
  | .number _ => List.isChain_singleton _
  | .text _ => List.isChain_singleton _
  | .array items => by
    rw [tokens]
    exact isChain_mark [] rfl .nil (isChain_mark _ rfl (itemTokens_parted items) .nil)
  | .object members => by
    rw [tokens]
    exact isChain_mark [] rfl .nil (isChain_mark _ rfl (memberTokens_parted members) .nil)

private theorem itemTokens_parted : (items : List Json) → (itemTokens items).IsChain Parts
  | [] => .nil
  | [item] => by
    rw [itemTokens]
    exact tokens_parted item
  | item :: next :: items => by
    rw [itemTokens]
    · exact isChain_mark _ rfl (tokens_parted item) (itemTokens_parted (next :: items))
    · exact nofun

private theorem memberTokens_parted : (members : List (Option String × Json)) →
    (memberTokens members).IsChain Parts
  | [] => .nil
  | [(key, value)] => by
    rw [memberTokens]
    exact isChain_mark [.text key] rfl (List.isChain_singleton _) (tokens_parted value)
  | (key, value) :: next :: members => by
    rw [memberTokens]
    · exact isChain_mark [.text key] rfl (List.isChain_singleton _)
        (isChain_mark _ rfl (tokens_parted value) (memberTokens_parted (next :: members)))
    · exact nofun

end

theorem itemTokens_front (item : Json) (items : List Json) :
    ∃ token rest, itemTokens (item :: items) = token :: rest ∧ token ≠ .arrayClose := by
  have first : ∃ token rest, item.tokens = token :: rest ∧ token ≠ .arrayClose := by
    cases item <;> rw [tokens] <;> exact ⟨_, _, rfl, nofun⟩
  obtain ⟨token, rest, front, other⟩ := first
  cases items with
  | nil => exact ⟨token, rest, by rw [itemTokens, front], other⟩
  | cons next more => exact ⟨token, _, by rw [itemTokens, front]; rfl; exact nofun, other⟩

mutual

/-- The tokens of a value lead a reader from where the value is needed to where it is done. -/
theorem foldlM_tokens : (value : Json) → ∀ outer,
    value.tokens.foldlM Reader.step (.needsValue outer) = some (.done value outer)
  | .null, _ => rfl
  | .bool _, _ => rfl
  | .number _, _ => rfl
  | .text _, _ => rfl
  | .array [], _ => rfl
  | .array (item :: items), outer => by
    have read := foldlM_items (item :: items) [] outer nofun
    obtain ⟨token, rest, front, other⟩ := itemTokens_front item items
    -- A reader behind the bracket also takes the end of the array, which no item starts with.
    have first : Reader.step (.opensArray outer) token =
        Reader.step (.needsValue (.array [] :: outer)) token := by
      cases token with
      | arrayClose => exact absurd rfl other
      | _ => rfl
    rw [front, List.cons_append, List.foldlM_cons] at read
    rw [tokens, front, List.foldlM_cons, List.cons_append]
    change List.foldlM Reader.step (.opensArray outer) _ = _
    rw [List.foldlM_cons, first, read]
    rfl
  | .object [], _ => rfl
  | .object (member :: members), outer => by
    rw [tokens]
    exact foldlM_members (member :: members) [] outer nofun

private theorem foldlM_items : (items seen : List Json) → ∀ outer, items ≠ [] →
    (itemTokens items ++ [Token.arrayClose]).foldlM Reader.step
        (.needsValue (.array seen :: outer)) =
      some (.done (.array (seen.reverse ++ items)) outer)
  | [], _, _, empty => absurd rfl empty
  | [item], seen, outer, _ => by
    rw [itemTokens, List.foldlM_append, foldlM_tokens item]
    simp [Reader.step]
  | item :: next :: items, seen, outer, _ => by
    have later := foldlM_items (next :: items) (item :: seen) outer nofun
    rw [itemTokens]
    · rw [List.append_assoc, List.foldlM_append, foldlM_tokens item]
      simpa [Reader.step] using later
    · exact nofun

private theorem foldlM_members :
    (members seen : List (Option String × Json)) → ∀ outer, members ≠ [] →
    (memberTokens members ++ [Token.objectClose]).foldlM Reader.step (.needsKey seen outer) =
      some (.done (.object (seen.reverse ++ members)) outer)
  | [], _, _, empty => absurd rfl empty
  | [(key, value)], seen, outer, _ => by
    rw [memberTokens]
    simp [Reader.step, List.foldlM_append, foldlM_tokens value]
  | (key, value) :: next :: members, seen, outer, _ => by
    have later := foldlM_members (next :: members) ((key, value) :: seen) outer nofun
    rw [memberTokens]
    · simpa [Reader.step, List.foldlM_append, foldlM_tokens value] using later
    · exact nofun

end

/-- A value is read back from its text, if the numbers in it are written with digits. -/
theorem read?_compact (value : Json) (written : ∀ token ∈ value.tokens, token.Written) :
    read? value.compact = some value := by
  rw [read?, compact, String.toList_ofList, readAll_chars #[] _ value.tokens_parted written,
    Option.bind_some, List.nil_append, ofTokens?, foldlM_tokens]
  rfl

theorem array_written {items : List Json}
    (written : ∀ item ∈ items, ∀ token ∈ item.tokens, token.Written) :
    ∀ token ∈ (array items).tokens, token.Written := by
  have inside : ∀ token ∈ itemTokens items, token.Written := by
    induction items with
    | nil => exact nofun
    | cons item rest ih =>
      obtain ⟨first, others⟩ := List.forall_mem_cons.mp written
      cases rest with
      | nil =>
        rw [itemTokens]
        exact first
      | cons next more =>
        rw [itemTokens, List.forall_mem_append, List.forall_mem_cons]
        · exact ⟨first, trivial, ih others⟩
        · exact nofun
  rw [tokens, List.forall_mem_cons, List.forall_mem_append, List.forall_mem_singleton]
  exact ⟨trivial, inside, trivial⟩

private theorem object_written {members : List (Option String × Json)}
    (written : ∀ member ∈ members, ∀ token ∈ member.2.tokens, token.Written) :
    ∀ token ∈ (object members).tokens, token.Written := by
  have inside : ∀ token ∈ memberTokens members, token.Written := by
    induction members with
    | nil => exact nofun
    | cons member rest ih =>
      obtain ⟨first, others⟩ := List.forall_mem_cons.mp written
      cases rest with
      | nil =>
        rw [memberTokens, List.forall_mem_cons, List.forall_mem_cons]
        exact ⟨trivial, trivial, first⟩
      | cons next more =>
        rw [memberTokens, List.forall_mem_cons, List.forall_mem_cons, List.forall_mem_append,
          List.forall_mem_cons]
        · exact ⟨trivial, trivial, first, trivial, ih others⟩
        · exact nofun
  rw [tokens, List.forall_mem_cons, List.forall_mem_append, List.forall_mem_singleton]
  exact ⟨trivial, inside, trivial⟩

theorem ofMembers_written {members : List (String × Json)}
    (written : ∀ member ∈ members, ∀ token ∈ member.2.tokens, token.Written) :
    ∀ token ∈ (ofMembers members).tokens, token.Written := by
  apply object_written
  intro member made
  obtain ⟨source, given, rfl⟩ := List.mem_map.mp made
  exact written source given

end Values

end LispIndex.Json
