import LispIndex.DocComment
import Mathlib.Data.List.Forall2
import Mathlib.Data.List.TakeWhile
import Mathlib.Tactic.SplitIfs

/-!
Documentation comments by blocks. The lines of a comment are cut at its tag lines, in one way only,
and what is read line by line are the entries of the blocks: parameters all, other facets from the
last block that has them.
-/

namespace LispIndex.DocComment

def isTagLine (line : List Char) : Bool :=
  ['@'].isPrefixOf line && line.contains ' '

structure Block where
  tagLine : List Char
  more : List (List Char)
deriving DecidableEq

def joined (lines : List (List Char)) : List Char :=
  [' '].intercalate lines

namespace Block

def lines (b : Block) : List (List Char) :=
  b.tagLine :: b.more

def word (b : Block) : List Char :=
  b.tagLine.takeWhile (· != ' ')

def content (b : Block) : List (List Char) :=
  Text.trim (b.tagLine.dropWhile (· != ' ')) :: b.more

def text (b : Block) : List Char :=
  joined b.content

def isTagged (tag : String) (b : Block) : Bool :=
  tag.toList.isPrefixOf (b.word.map asciiCapital)

def isKnown (b : Block) : Bool :=
  ["@REMARK", "@DESC", "@RETURN", "@PARAM"].any b.isTagged

end Block

/-- The lines are those in front of all tags and then those of the blocks. -/
structure Cut (lines lead : List (List Char)) (blocks : List Block) : Prop where
  whole : lead ++ blocks.flatMap Block.lines = lines
  lead : ∀ line ∈ lead, isTagLine line = false
  opened : ∀ b ∈ blocks, isTagLine b.tagLine = true
  continued : ∀ b ∈ blocks, ∀ line ∈ b.more, isTagLine line = false

/-- The entry that a text makes: its name ends at the first space. -/
def Splits (text : List Char) (e : DocEntry) : Prop :=
  (∃ name value, text = name ++ ' ' :: value ∧ ' ' ∉ name ∧
      e = ⟨String.ofList name, String.ofList value⟩) ∨
    ' ' ∉ text ∧ e = ⟨String.ofList text, ""⟩

def lastTagged? (tag : String) (blocks : List Block) : Option Block :=
  (blocks.filter (·.isTagged tag)).getLast?

/-- The first lines without a tag in front of all tags or behind a tag that is not known. -/
def firstRun? (lead : List (List Char)) (blocks : List Block) : Option (List (List Char)) :=
  (lead :: (blocks.filter (!·.isKnown)).map Block.more).find? (!·.isEmpty)

structure Documents (lead : List (List Char)) (blocks : List Block) (d : DocComment) : Prop where
  params : List.Forall₂ (fun b e => Splits (normalize b.text) e)
    (blocks.filter (·.isTagged "@PARAM")) d.params
  returns : d.returns =
    (lastTagged? "@RETURN" blocks).map fun b => ⟨"Returns", String.ofList b.text⟩
  remarks : d.remarks =
    (lastTagged? "@REMARK" blocks).map fun b => ⟨"Remarks", String.ofList b.text⟩
  description : d.description =
    (((lastTagged? "@DESC" blocks).map Block.content).or (firstRun? lead blocks)).map
      fun lines => ⟨"Description", String.ofList (joined lines)⟩

def docLines (a : Atom) : List (List Char) :=
  ((Text.lines a.symbol.toList).map normalize).filter (!·.isEmpty)

section Cutting

def blocksOf : List (List Char) → List Block
  | [] => []
  | line :: rest =>
    if isTagLine line then ⟨line, rest.takeWhile (!isTagLine ·)⟩ :: blocksOf rest else blocksOf rest

variable {lines lead run rest : List (List Char)} {blocks : List Block}

theorem blocksOf_run (plain : ∀ line ∈ run, isTagLine line = false) :
    blocksOf (run ++ rest) = blocksOf rest := by
  induction run with
  | nil => rfl
  | cons line run ih =>
    obtain ⟨first, others⟩ := List.forall_mem_cons.mp plain
    rw [List.cons_append, blocksOf, first, if_neg Bool.false_ne_true, ih others]

theorem takeWhile_run (plain : ∀ line ∈ run, isTagLine line = false)
    (opened : ∀ b ∈ blocks, isTagLine b.tagLine = true) :
    (run ++ blocks.flatMap Block.lines).takeWhile (!isTagLine ·) = run := by
  rw [List.takeWhile_append_of_pos (by simpa using plain)]
  cases blocks with
  | nil => simp
  | cons b blocks =>
    have first := opened b List.mem_cons_self
    simp [Block.lines, first]

private theorem Cut.blocks_eq (cut : Cut lines lead blocks) :
    lead = lines.takeWhile (!isTagLine ·) ∧ blocks = blocksOf lines := by
  obtain ⟨rfl, plain, opened, continued⟩ := cut
  refine ⟨(takeWhile_run plain opened).symm, ?_⟩
  rw [blocksOf_run plain]
  clear plain
  induction blocks with
  | nil => rfl
  | cons b blocks ih =>
    obtain ⟨first, others⟩ := List.forall_mem_cons.mp opened
    obtain ⟨own, further⟩ := List.forall_mem_cons.mp continued
    rw [List.flatMap_cons, Block.lines, List.cons_append, blocksOf, if_pos first,
      takeWhile_run own others, blocksOf_run own, ← ih others further]

theorem cut_blocksOf (lines : List (List Char)) :
    Cut lines (lines.takeWhile (!isTagLine ·)) (blocksOf lines) := by
  induction lines with
  | nil => exact ⟨rfl, nofun, nofun, nofun⟩
  | cons line rest ih =>
    rw [blocksOf]
    cases tagged : isTagLine line with
    | true =>
      rw [List.takeWhile_cons_of_neg (by simp [tagged]), if_pos rfl]
      refine ⟨?_, nofun, List.forall_mem_cons.mpr ⟨tagged, ih.opened⟩,
        List.forall_mem_cons.mpr ⟨ih.lead, ih.continued⟩⟩
      rw [List.flatMap_cons, Block.lines, List.nil_append, List.cons_append, ih.whole]
    | false =>
      rw [List.takeWhile_cons_of_pos (by simp [tagged]), if_neg Bool.false_ne_true]
      refine ⟨?_, List.forall_mem_cons.mpr ⟨tagged, ih.lead⟩, ih.opened, ih.continued⟩
      rw [List.cons_append, ih.whole]

end Cutting

section Tags

def Facet.tag : Facet → String
  | .remarks => "@REMARK"
  | .description => "@DESC"
  | .returns => "@RETURN"
  | .param => "@PARAM"

private theorem Facet.tag_apart {facet other : Facet} (apart : facet ≠ other) :
    ¬ facet.tag.toList <+: other.tag.toList := by
  rw [← List.isPrefixOf_iff_prefix]
  revert apart
  cases facet <;> cases other <;> decide

variable {b : Block} {facet other : Facet}

private theorem facet?_eq (b : Block) : facet? b.word =
    if b.isTagged "@REMARK" then some .remarks
    else if b.isTagged "@DESC" then some .description
    else if b.isTagged "@RETURN" then some .returns
    else if b.isTagged "@PARAM" then some .param else none := rfl

/-- No word starts with two of the tags. -/
theorem not_isTagged (tagged : b.isTagged facet.tag = true) (apart : facet ≠ other) :
    b.isTagged other.tag = false := by
  rw [Bool.eq_false_iff]
  intro also
  rw [Block.isTagged, List.isPrefixOf_iff_prefix] at tagged also
  rcases List.prefix_or_prefix_of_prefix tagged also with front | front
  · exact Facet.tag_apart apart front
  · exact Facet.tag_apart apart.symm front

theorem facet?_eq_some_iff : facet? b.word = some facet ↔ b.isTagged facet.tag = true := by
  constructor
  · intro found
    rw [facet?_eq] at found
    split_ifs at found with remarks description returns param <;> cases found <;> assumption
  · intro tagged
    have others (other : Facet) (apart : facet ≠ other) : b.isTagged other.tag = false :=
      not_isTagged tagged apart
    rw [facet?_eq]
    cases facet with
    | remarks => exact if_pos tagged
    | description =>
      rw [show b.isTagged "@REMARK" = false from others .remarks nofun]
      exact if_pos tagged
    | returns =>
      rw [show b.isTagged "@REMARK" = false from others .remarks nofun,
        show b.isTagged "@DESC" = false from others .description nofun]
      exact if_pos tagged
    | param =>
      rw [show b.isTagged "@REMARK" = false from others .remarks nofun,
        show b.isTagged "@DESC" = false from others .description nofun,
        show b.isTagged "@RETURN" = false from others .returns nofun]
      exact if_pos tagged

private theorem isTagged_eq (b : Block) (facet : Facet) :
    b.isTagged facet.tag = decide (facet? b.word = some facet) := by
  rw [Bool.eq_iff_iff, decide_eq_true_eq, facet?_eq_some_iff]

private theorem isKnown_eq (b : Block) : b.isKnown = (facet? b.word).isSome := by
  rw [facet?_eq, Block.isKnown]
  simp only [List.any_cons, List.any_nil, Bool.or_false]
  split_ifs with remarks description returns param <;> simp [*]

end Tags

namespace Draft

def put (d : Draft) (lines : EntryLines) : Facet → Draft
  | .remarks => { d with remarks := some lines, active := some .remarks }
  | .description => { d with description := some lines, active := some .description }
  | .returns => { d with returns := some lines, active := some .returns }
  | .param => { d with params := lines :: d.params, active := some .param }

def idle (d : Draft) : Draft :=
  { d with active := none }

def stray (d : Draft) (run : List (List Char)) : Draft :=
  if d.description.isNone && !run.isEmpty then d.put run.reverse .description else d.idle

def addBlock (d : Draft) (b : Block) : Draft :=
  match facet? b.word with
  | some facet => d.put b.content.reverse facet
  | none => d.stray b.more

variable (d : Draft) {run : List (List Char)}

private theorem add_of_plain {line : List Char} (plain : isTagLine line = false) :
    d.add line = d.continueEntry line :=
  if_neg (by rw [← isTagLine, plain]; exact Bool.false_ne_true)

private theorem openEntry_eq (line : List Char) (facet : Facet) :
    d.openEntry line (some facet) = d.put [line] facet := by
  cases facet <;> rfl

private theorem continueEntry_put (line : List Char) (lines : EntryLines) (facet : Facet) :
    (d.put lines facet).continueEntry line = d.put (line :: lines) facet := by
  cases facet <;> rfl

private theorem foldl_put (plain : ∀ line ∈ run, isTagLine line = false) (lines : EntryLines)
    (facet : Facet) : run.foldl add (d.put lines facet) = d.put (run.reverse ++ lines) facet := by
  induction run generalizing lines with
  | nil => rfl
  | cons line run ih =>
    obtain ⟨first, others⟩ := List.forall_mem_cons.mp plain
    rw [List.foldl_cons, add_of_plain _ first, continueEntry_put, ih others, List.reverse_cons,
      List.append_assoc, List.singleton_append]

private theorem add_idle {line : List Char} (plain : isTagLine line = false) :
    d.idle.add line = if d.description.isNone then d.put [line] .description else d.idle :=
  add_of_plain _ plain

private theorem foldl_stray (plain : ∀ line ∈ run, isTagLine line = false) :
    run.foldl add d.idle = d.stray run := by
  cases undescribed : d.description.isNone with
  | true =>
    cases run with
    | nil => simp [stray]
    | cons line run =>
      obtain ⟨first, others⟩ := List.forall_mem_cons.mp plain
      rw [List.foldl_cons, add_idle d first, if_pos undescribed, foldl_put d others]
      simp [stray, undescribed]
  | false =>
    rw [stray, undescribed, Bool.false_and, if_neg Bool.false_ne_true]
    induction run with
    | nil => rfl
    | cons line run ih =>
      obtain ⟨first, others⟩ := List.forall_mem_cons.mp plain
      rw [List.foldl_cons, add_idle d first, undescribed, if_neg Bool.false_ne_true, ih others]

private theorem foldl_block {b : Block} (opened : isTagLine b.tagLine = true)
    (continued : ∀ line ∈ b.more, isTagLine line = false) :
    b.lines.foldl add d = d.addBlock b := by
  have first : d.add b.tagLine =
      d.openEntry (Text.trim (b.tagLine.dropWhile (· != ' '))) (facet? b.word) := if_pos opened
  rw [Block.lines, List.foldl_cons, first, addBlock]
  cases facet? b.word with
  | none => exact foldl_stray d continued
  | some facet =>
    rw [openEntry_eq, foldl_put d continued, Block.content, List.reverse_cons]

private theorem foldl_cut {lines lead : List (List Char)} {blocks : List Block}
    (cut : Cut lines lead blocks) :
    lines.foldl add {} = blocks.foldl addBlock (stray {} lead) := by
  obtain ⟨rfl, plain, opened, continued⟩ := cut
  rw [List.foldl_append, ← foldl_stray {} plain, show idle {} = {} from rfl]
  generalize lead.foldl add _ = d
  induction blocks generalizing d with
  | nil => rfl
  | cons b blocks ih =>
    obtain ⟨first, others⟩ := List.forall_mem_cons.mp opened
    obtain ⟨own, further⟩ := List.forall_mem_cons.mp continued
    rw [List.flatMap_cons, List.foldl_append, foldl_block d first own, List.foldl_cons,
      ih others further]

section Fields

/-- A field that every block with some property replaces has the value of the last one. -/
theorem foldl_last {σ β γ : Type} {step : σ → β → σ} {field : σ → Option γ} {test : β → Bool}
    {value : β → γ}
    (law : ∀ s b, field (step s b) = if test b then some (value b) else field s) (s : σ)
    (blocks : List β) :
    field (blocks.foldl step s) = ((blocks.filter test).getLast?.map value).or (field s) := by
  induction blocks generalizing s with
  | nil => rfl
  | cons b blocks ih =>
    rw [List.foldl_cons, ih, law]
    cases passes : test b with
    | true =>
      rw [List.filter_cons_of_pos passes, List.getLast?_cons, if_pos rfl]
      cases (blocks.filter test).getLast? <;> rfl
    | false => rw [List.filter_cons_of_neg (by simp [passes]), if_neg Bool.false_ne_true]

def run? (run : List (List Char)) : Option EntryLines :=
  if run.isEmpty then none else some run.reverse

variable (d : Draft) (b : Block) (blocks : List Block)

private theorem stray_fields (run : List (List Char)) :
    (d.stray run).params = d.params ∧ (d.stray run).returns = d.returns ∧
      (d.stray run).remarks = d.remarks ∧
      (d.stray run).description = d.description.or (run? run) := by
  rw [stray, run?]
  cases described : d.description <;> cases run <;> simp [put, idle, described]

private theorem addBlock_remarks : (d.addBlock b).remarks =
    if b.isTagged "@REMARK" then some b.content.reverse else d.remarks := by
  rw [show b.isTagged "@REMARK" = _ from isTagged_eq b .remarks, addBlock]
  cases facet? b.word with
  | none => exact (d.stray_fields b.more).2.2.1
  | some facet => cases facet <;> rfl

private theorem addBlock_returns : (d.addBlock b).returns =
    if b.isTagged "@RETURN" then some b.content.reverse else d.returns := by
  rw [show b.isTagged "@RETURN" = _ from isTagged_eq b .returns, addBlock]
  cases facet? b.word with
  | none => exact (d.stray_fields b.more).2.1
  | some facet => cases facet <;> rfl

private theorem addBlock_params : (d.addBlock b).params =
    if b.isTagged "@PARAM" then b.content.reverse :: d.params else d.params := by
  rw [show b.isTagged "@PARAM" = _ from isTagged_eq b .param, addBlock]
  cases facet? b.word with
  | none => exact (d.stray_fields b.more).1
  | some facet => cases facet <;> rfl

private theorem addBlock_description : (d.addBlock b).description =
    if b.isTagged "@DESC" then some b.content.reverse
    else if b.isKnown then d.description else d.description.or (run? b.more) := by
  rw [show b.isTagged "@DESC" = _ from isTagged_eq b .description, isKnown_eq, addBlock]
  cases facet? b.word with
  | none => exact (d.stray_fields b.more).2.2.2
  | some facet => cases facet <;> rfl

private theorem foldl_params : (blocks.foldl addBlock d).params =
    ((blocks.filter (·.isTagged "@PARAM")).map (·.content.reverse)).reverse ++ d.params := by
  induction blocks generalizing d with
  | nil => rfl
  | cons b blocks ih =>
    rw [List.foldl_cons, ih, addBlock_params]
    cases tagged : b.isTagged "@PARAM" <;> simp [tagged]

theorem lastTagged?_cons (tag : String) : lastTagged? tag (b :: blocks) =
    if b.isTagged tag then (lastTagged? tag blocks).or (some b) else lastTagged? tag blocks := by
  rw [lastTagged?, lastTagged?, List.filter_cons]
  split_ifs
  · rw [List.getLast?_cons]
    cases (blocks.filter (·.isTagged tag)).getLast? <;> rfl
  · rfl

private theorem findSome?_run? (runs : List (List (List Char))) :
    runs.findSome? run? = (runs.find? (!·.isEmpty)).map List.reverse := by
  induction runs with
  | nil => rfl
  | cons run runs ih => cases run <;> simp [run?, ih]

/-- A description that is given by a tag replaces every other, one of stray lines none. -/
theorem foldl_description : (blocks.foldl addBlock d).description =
    ((lastTagged? "@DESC" blocks).map (·.content.reverse)).or
      (d.description.or (((blocks.filter (!·.isKnown)).map Block.more).findSome? run?)) := by
  induction blocks generalizing d with
  | nil => simp [lastTagged?]
  | cons b blocks ih =>
    rw [List.foldl_cons, ih, addBlock_description, lastTagged?_cons]
    cases described : b.isTagged "@DESC" with
    | true =>
      have known : b.isKnown = true := by simp [Block.isKnown, described]
      rw [List.filter_cons_of_neg (by simp [known]), if_pos rfl, if_pos rfl, Option.some_or,
        Option.map_or, Option.map_some, Option.or_assoc, Option.some_or]
    | false =>
      rw [if_neg Bool.false_ne_true, if_neg Bool.false_ne_true]
      cases known : b.isKnown with
      | true => rw [List.filter_cons_of_neg (by simp [known]), if_pos rfl]
      | false =>
        rw [List.filter_cons_of_pos (by simp [known]), if_neg Bool.false_ne_true, List.map_cons,
          List.findSome?_cons, Option.or_assoc]
        cases run? b.more <;> rfl

end Fields

end Draft

private theorem splits_param (lines : EntryLines) :
    Splits (normalize lines.text) (Draft.param lines) := by
  rw [Draft.param]
  generalize normalize lines.text = text
  have split := List.takeWhile_append_dropWhile (p := (· != ' ')) (l := text)
  have named : ' ' ∉ text.takeWhile (· != ' ') := by
    intro member
    simpa using List.mem_takeWhile_imp member
  cases behind : text.dropWhile (· != ' ') with
  | nil =>
    rw [behind, List.append_nil] at split
    exact .inr ⟨split ▸ named, by rw [split]; rfl⟩
  | cons c value =>
    have space : c = ' ' := by
      have stops := List.head?_dropWhile_not (· != ' ') text
      simpa [behind] using stops
    rw [behind, space] at split
    exact .inl ⟨_, value, split.symm, named, rfl⟩

/-- The text of an entry is that of its block. -/
theorem text_reverse (lines : List (List Char)) : EntryLines.text lines.reverse = joined lines := by
  rw [EntryLines.text, List.reverse_reverse, joined]

theorem documents_of_cut {lines lead : List (List Char)} {blocks : List Block}
    (cut : Cut lines lead blocks) : Documents lead blocks (lines.foldl Draft.add {}).finish := by
  rw [Draft.foldl_cut cut]
  obtain ⟨params, returns, remarks, description⟩ := Draft.stray_fields {} lead
  constructor
  · rw [Draft.finish, Draft.foldl_params, params, List.append_nil, List.reverse_reverse,
      List.map_map, List.forall₂_map_right_iff, List.forall₂_same]
    intro b _
    have entry := splits_param b.content.reverse
    rwa [text_reverse] at entry
  · rw [Draft.finish, Draft.foldl_last Draft.addBlock_returns, returns, Option.or_none,
      Option.map_map]
    simp only [Function.comp_def, text_reverse]
    rfl
  · rw [Draft.finish, Draft.foldl_last Draft.addBlock_remarks, remarks, Option.or_none,
      Option.map_map]
    simp only [Function.comp_def, text_reverse]
    rfl
  · have runs : (Draft.run? lead).or
        (((blocks.filter (!·.isKnown)).map Block.more).findSome? Draft.run?) =
          (firstRun? lead blocks).map List.reverse := by
      rw [firstRun?, ← Draft.findSome?_run?, List.findSome?_cons]
      cases Draft.run? lead <;> rfl
    have reversed : (lastTagged? "@DESC" blocks).map (·.content.reverse) =
        ((lastTagged? "@DESC" blocks).map Block.content).map List.reverse := by
      rw [Option.map_map]
      rfl
    rw [Draft.finish, Draft.foldl_description, description, Option.none_or, runs, reversed,
      ← Option.map_or, Option.map_map]
    simp only [Function.comp_def, text_reverse]

/-- The lines of a comment are cut into blocks in one way, and its documentation is what the blocks
make up. -/
theorem ofAtom_documents (a : Atom) (comment : a.isComment = true) :
    ∃ lead blocks, Cut (docLines a) lead blocks ∧
      (∀ front others, Cut (docLines a) front others → front = lead ∧ others = blocks) ∧
      Documents lead blocks (ofAtom a) := by
  have cut := cut_blocksOf (docLines a)
  refine ⟨_, _, cut, fun front others other => other.blocks_eq, ?_⟩
  rw [ofAtom, if_pos comment]
  exact documents_of_cut cut

theorem ofAtom_documents_stray :
    let a : Atom := ⟨";|note\n@Param p x\n @ y\n@Author q\nw\n@Desc d|;", .origin, 0, [], false⟩
    a.isComment = true ∧ ∃ lead blocks, Cut (docLines a) lead blocks ∧
      (∀ front others, Cut (docLines a) front others → front = lead ∧ others = blocks) ∧
      Documents lead blocks (ofAtom a) :=
  ⟨by decide, ofAtom_documents _ (by decide)⟩

end LispIndex.DocComment
