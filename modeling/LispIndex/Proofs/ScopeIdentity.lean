import LispIndex.Proofs.Parents
import LispIndex.Proofs.Resolution

/-!
Comparing references and hosts. References are compared by their atoms and hosts by their ranges.
Within the scopes of one document this tells every reference and every form apart; only the document
itself may have the range of a form, which then takes up all of its atoms.
-/

namespace LispIndex

namespace ScopeTree

variable {t : ScopeTree} {d : Document}

/-- Comparing tells apart the references and the hosts of a document. The document compares equal
to a host exactly if the form of that host spans every atom. -/
structure TellsApart (t : ScopeTree) (d : Document) : Prop where
  references : ∀ (i j : Nat) (r s : Reference), t.references[i]? = some r →
    t.references[j]? = some s → (t.sameReference t r s = true ↔ i = j)
  hosts : ∀ (i j : Nat) (g h : Host), t.hosts[i]? = some g → t.hosts[j]? = some h →
    g.kind ≠ .root → h.kind ≠ .root → (t.sameHost t g h = true ↔ i = j)
  document : ∃ root, t.hosts[0]? = some root ∧ root.kind = .root ∧
    ∀ (i : Nat) (h : Host), t.hosts[i]? = some h → h.kind ≠ .root → (∃! f, d.Creates f h) ∧
      ∀ f, d.Creates f h → (t.sameHost t root h = true ↔ f.span = ⟨0, d.atoms.size⟩)

theorem sameReference_iff {r s : Reference} : t.sameReference t r s = true ↔ r.index = s.index := by
  simp [sameReference]

theorem sameHost_iff {g h : Host} : t.sameHost t g h = true ↔ g.range = h.range := by
  simp [sameHost]

private theorem Arranged.sameReference_iff_eq (arranged : t.Arranged) {i j : Nat} {r s : Reference}
    (first : t.references[i]? = some r) (second : t.references[j]? = some s) :
    t.sameReference t r s = true ↔ i = j := by
  rw [sameReference_iff]
  constructor
  · -- Looking the atom up leads to both of them.
    intro same
    have left := (arranged.found r.index i).mpr ⟨r, first, rfl⟩
    have right := (arranged.found s.index j).mpr ⟨s, second, rfl⟩
    rw [same, right] at left
    exact (Option.some.inj left).symm
  · rintro rfl
    exact congrArg Reference.index (Option.some.inj (first.symm.trans second))

private theorem Arranged.exists_pred (arranged : t.Arranged) {i : Nat} {h : Host}
    (found : t.hosts[i]? = some h) (inner : h.kind ≠ .root) : ∃ id, i = id + 1 := by
  apply Nat.exists_eq_succ_of_ne_zero
  rintro rfl
  obtain ⟨root, here, kind, -⟩ := arranged.document
  obtain rfl := Option.some.inj (here.symm.trans found)
  exact inner kind

end ScopeTree

namespace Document

variable {d : Document}

theorem Sourced.neat (sourced : d.Sourced) (worded : d.Worded) : d.root.Neat where
  covers := sourced.whole ▸ sourced.covers
  inner g nested := by
    obtain ⟨i, rest, front, -⟩ := worded.opens g nested
    exact ⟨(sourced.forms g nested).1, i, rest, front⟩

/-- The document has the range of a form exactly if that form spans all atoms. -/
theorem Sourced.whole_range_iff (sourced : d.Sourced) (worded : d.Worded) {f : Form}
    (nested : f ∈ d.root.nested) :
    d.view.range = (d.view.child f).range ↔ f.span = ⟨0, d.atoms.size⟩ := by
  have part := sourced.spans nested
  have whole : d.view.form.span = ⟨0, d.atoms.size⟩ := sourced.whole
  constructor
  · intro same
    obtain ⟨-, filled, bound⟩ := sourced.forms f nested
    have all := d.view.range_spans (by rw [whole]; dsimp only; omega) (by rw [whole]; rfl)
    rw [whole, same] at all
    obtain ⟨first, stop⟩ := sourced.spans_unique worded part all
    exact congr (congrArg Span.mk first) stop
  · intro same
    have span : d.view.form.span = (d.view.child f).form.span := whole.trans same.symm
    rw [FormView.range, FormView.range, FormView.first?, FormView.first?, FormView.last?,
      FormView.last?, span]
    rfl

theorem Sourced.tellsApart (sourced : d.Sourced) (worded : d.Worded) (native : String → Bool)
    (file : String) : (ScopeTree.build native file d).TellsApart d := by
  have arranged := sourced.arranged native file
  obtain ⟨forms, part, opened⟩ := ScopeTree.build_forms native file d
  have distinct : forms.Nodup := part.nodup (sourced.neat worded).nested_distinct
  constructor
  · intro i j r s first second
    exact arranged.sameReference_iff_eq first second
  · intro i j g h first second inner other
    rw [ScopeTree.sameHost_iff]
    constructor
    · intro same
      obtain ⟨i, rfl⟩ := arranged.exists_pred first inner
      obtain ⟨j, rfl⟩ := arranged.exists_pred second other
      obtain ⟨f, here, ⟨left, range, -⟩⟩ := opened i g first
      obtain ⟨e, there, ⟨right, others, -⟩⟩ := opened j h second
      obtain rfl := sourced.form_unique worded left right (range.trans (same.trans others.symm))
      have place := (List.getElem?_inj (List.getElem?_eq_some_iff.mp here).1 distinct).mp
        (here.trans there.symm)
      exact congrArg Nat.succ place
    · rintro rfl
      exact congrArg Host.range (Option.some.inj (first.symm.trans second))
  · obtain ⟨root, found, kind, -⟩ := arranged.document
    refine ⟨root, found, kind, ?_⟩
    intro i h here inner
    obtain ⟨id, rfl⟩ := arranged.exists_pred here inner
    refine ⟨ScopeTree.build_created native file sourced worded (Nat.succ_ne_zero id) here, ?_⟩
    rintro f ⟨nested, range, -⟩
    rw [ScopeTree.build_eq_ofOutline, ScopeTree.ofOutline, List.getElem?_toArray,
      List.getElem?_cons_zero] at found
    rw [ScopeTree.sameHost_iff, ← Option.some.inj found, ← range]
    exact sourced.whole_range_iff worded nested

end Document

/-- Comparing tells apart the references and the hosts of every document, with its exported names
marked or not. -/
theorem build_tells_apart (native names : String → Bool) (file text : String) :
    (ScopeTree.build native file (Document.build names text)).TellsApart
        (Document.build names text) ∧
      (ScopeTree.build native file (Document.parse names text)).TellsApart
        (Document.parse names text) := by
  constructor
  · exact (build_sourced names text).tellsApart (build_worded names text) native file
  · exact (parse_sourced names text).tellsApart (parse_worded names text) native file

end LispIndex
