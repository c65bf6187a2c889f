import DocComment.Proofs.Reference.Passes

/-!
# The graph of copies

An owner points at every documented owner that its documentation copies. What becomes of a copy
can be said by this graph alone: it fails for a cycle when one is reachable from the owner that it
asks for, and otherwise it gets the filled documentation of that owner. The filled documentation
is defined by recursion on how many owners can be reached, which no search and no stack enters.
-/

set_option autoImplicit false

namespace DocComment

open Relation

namespace Model

/-! ## Owners -/

/-- The owner of what a name stands for. An anchor belongs to the owner whose documentation holds
it, and anything else is an owner itself. -/
inductive HeldBy (m : Model) : Target → Target → Prop
  | symbol (i : Nat) : HeldBy m (.symbol i) (.symbol i)
  | group (i : Nat) : HeldBy m (.group i) (.group i)
  | file (i : Nat) : HeldBy m (.file i) (.file i)
  | anchor {i : Nat} {a : Anchor} : m.anchors[i]? = some a → HeldBy m (.anchor i) a.owner

/-- The documentation that a symbol, a group or a file has. -/
inductive DocOf (m : Model) : Target → Doc → Prop
  | symbol {i : Nat} {s : Symbol} {doc : Doc} :
    m.symbols[i]? = some s → s.doc = some doc → DocOf m (.symbol i) doc
  | group {i : Nat} {g : Group} {doc : Doc} :
    m.groups[i]? = some g → g.doc = some doc → DocOf m (.group i) doc
  | file {i : Nat} {f : File} {doc : Doc} :
    m.files[i]? = some f → f.doc = some doc → DocOf m (.file i) doc

theorem HeldBy.holder_eq {m : Model} {found owner : Target} (h : m.HeldBy found owner) :
    m.holder found = owner := by
  cases h with
  | anchor known => simp [holder, known]
  | _ => rfl

theorem docOf_iff {m : Model} {u : Target} {doc : Doc} :
    m.DocOf u doc ↔ m.ownDoc? u = some doc := by
  constructor
  · rintro (⟨known, own⟩ | ⟨known, own⟩ | ⟨known, own⟩) <;> simp [ownDoc?, known, own]
  · intro own
    cases u with
    | symbol i =>
      obtain ⟨s, known, own⟩ := Option.bind_eq_some_iff.mp own
      exact .symbol known own
    | group i =>
      obtain ⟨g, known, own⟩ := Option.bind_eq_some_iff.mp own
      exact .group known own
    | file i =>
      obtain ⟨f, known, own⟩ := Option.bind_eq_some_iff.mp own
      exact .file known own
    | anchor i => cases own

theorem docOf_isSome {m : Model} {u : Target} : (∃ doc, m.DocOf u doc) ↔ (m.ownDoc? u).isSome := by
  simp only [docOf_iff, Option.isSome_iff_exists]

/-- Documentation is found with the owner. -/
theorem heldBy_holder {m : Model} {found : Target} (h : (m.ownDoc? (m.holder found)).isSome) :
    m.HeldBy found (m.holder found) := by
  cases found with
  | symbol i => exact .symbol i
  | group i => exact .group i
  | file i => exact .file i
  | anchor i =>
    cases known : m.anchors[i]? with
    | none => simp [holder, known, ownDoc?] at h
    | some a =>
      have owner : m.holder (.anchor i) = a.owner := by simp [holder, known]
      rw [owner]
      exact .anchor known

/-! ## Edges -/

/-- The documentation of `u` holds a copy of that of `v`. -/
def CopyEdge (m : Model) (u v : Target) : Prop :=
  ∃ doc, m.DocOf u doc ∧ ∃ written ∈ doc.copyTargets, ∃ found,
    (NameTable.ofModel m).find? written = some found ∧ m.HeldBy found v ∧
      ∃ copied, m.DocOf v copied

theorem copyEdge_iff {m : Model} {u v : Target} :
    m.CopyEdge u v ↔
      ∃ doc, m.ownDoc? u = some doc ∧ ∃ written ∈ doc.copyTargets, ∃ found,
        (NameTable.ofModel m).find? written = some found ∧ m.holder found = v ∧
          (m.ownDoc? v).isSome := by
  have owned {found : Target} : (m.HeldBy found v ∧ (m.ownDoc? v).isSome) ↔
      m.holder found = v ∧ (m.ownDoc? v).isSome := by
    refine and_congr_left fun documented => ⟨HeldBy.holder_eq, ?_⟩
    rintro rfl
    exact heldBy_holder documented
  simp only [CopyEdge, docOf_isSome, owned]
  simp only [docOf_iff]

def LeadsToCycle (m : Model) (v : Target) : Prop :=
  ∃ x, ReflTransGen m.CopyEdge v x ∧ TransGen m.CopyEdge x x

theorem leadsToCycle_iff {m : Model} {v : Target} :
    m.LeadsToCycle v ↔ ∃ w, m.CopyEdge v w ∧ m.LeadsToCycle w := by
  constructor
  · rintro ⟨x, path, loop⟩
    obtain rfl | ⟨w, edge, rest⟩ := ReflTransGen.cases_head path
    · obtain ⟨w, edge, rest⟩ := TransGen.head'_iff.mp loop
      exact ⟨w, edge, v, rest, loop⟩
    · exact ⟨w, edge, x, rest, loop⟩
  · rintro ⟨w, edge, x, path, loop⟩
    exact ⟨x, path.head edge, loop⟩

/-- Every owner on the way to a cycle has documentation. -/
theorem LeadsToCycle.documented {m : Model} {v : Target} (h : m.LeadsToCycle v) :
    ∃ doc, m.DocOf v doc := by
  obtain ⟨_, ⟨doc, own, -⟩, -⟩ := leadsToCycle_iff.mp h
  exact ⟨doc, own⟩

/-! ## Reachable owners -/

theorem documented_finite (m : Model) : {v | (m.ownDoc? v).isSome}.Finite := by
  let numbers (mk : Nat → Target) (n : Nat) : Set Target := mk '' {i | i < n}
  have finite (mk : Nat → Target) (n : Nat) : (numbers mk n).Finite :=
    (Set.finite_lt_nat n).image mk
  refine ((finite .symbol m.symbols.length).union ((finite .group m.groups.length).union
    (finite .file m.files.length))).subset fun v hv => ?_
  have within {α : Type} {l : List α} {i : Nat} {docOf : α → Option Doc}
      (h : (l[i]?.bind docOf).isSome) : i < l.length := by
    by_contra outside
    simp [List.getElem?_eq_none (Nat.le_of_not_lt outside)] at h
  cases v with
  | symbol i => exact .inl ⟨i, within hv, rfl⟩
  | group i => exact .inr (.inl ⟨i, within hv, rfl⟩)
  | file i => exact .inr (.inr ⟨i, within hv, rfl⟩)
  | anchor i => simp [ownDoc?] at hv

/-- The owners whose documentation is copied into that of `u`, directly or not. -/
def copied (m : Model) (u : Target) : Set Target := {v | TransGen m.CopyEdge u v}

theorem copied_finite (m : Model) (u : Target) : (m.copied u).Finite := by
  apply m.documented_finite.subset
  intro v path
  obtain ⟨w, -, edge⟩ := TransGen.tail'_iff.mp path
  obtain ⟨_, _, _, _, _, _, _, documented⟩ := copyEdge_iff.mp edge
  exact documented

theorem copied_lt {m : Model} {u v : Target} (edge : m.CopyEdge u v) (acyclic : ¬m.LeadsToCycle v) :
    (m.copied v).ncard < (m.copied u).ncard := by
  have fewer : m.copied v ⊂ m.copied u := by
    refine ⟨fun x path => TransGen.head edge path, fun all => ?_⟩
    have loop : TransGen m.CopyEdge v v := all (TransGen.single edge)
    exact acyclic ⟨v, .refl, loop⟩
  exact Set.ncard_lt_ncard fewer (m.copied_finite u)

/-! ## What becomes of a copy -/

open Classical in
/-- What a copy that asks for `written` finds, or why it fails. -/
noncomputable def outcome (m : Model) (written : Text) : Except RefFailure Target :=
  match (NameTable.ofModel m).find? written with
  | none => .error .notFound
  | some found =>
    if m.docAt? found = none then .error .undocumented
    else if m.LeadsToCycle (m.holder found) then .error .cycle
    else .ok found

section

variable {m : Model} {written : Text} {found : Target}

theorem outcome_notFound :
    m.outcome written = .error .notFound ↔ (NameTable.ofModel m).find? written = none := by
  unfold outcome
  split
  · simp_all
  · split_ifs <;> simp_all

theorem outcome_undocumented :
    m.outcome written = .error .undocumented ↔
      ∃ found, (NameTable.ofModel m).find? written = some found ∧ m.docAt? found = none := by
  unfold outcome
  split
  · simp_all
  · split_ifs <;> simp_all

theorem outcome_cycle :
    m.outcome written = .error .cycle ↔
      ∃ found, (NameTable.ofModel m).find? written = some found ∧
        m.LeadsToCycle (m.holder found) := by
  unfold outcome
  split
  · simp_all
  next found h =>
    split_ifs with undocumented cyclic
    · have noCycle : ¬m.LeadsToCycle (m.holder found) := by
        intro cyclic
        have documented : (m.docAt? found).isSome := docOf_isSome.mp cyclic.documented
        simp [undocumented] at documented
      simp_all
    · simp_all
    · simp_all

theorem outcome_ok :
    m.outcome written = .ok found ↔
      (NameTable.ofModel m).find? written = some found ∧ m.docAt? found ≠ none ∧
        ¬m.LeadsToCycle (m.holder found) := by
  unfold outcome
  split
  · simp_all
  · split_ifs <;> grind

end

/-- What a copy becomes once the documentation of other owners is filled. -/
noncomputable def settle (m : Model) (filled : Target → Option Doc) : Node → Node
  | .copyDoc written _ _ =>
    match m.outcome written with
    | .ok found => .copyDoc written (.resolved found written) (filled (m.holder found))
    | .error reason => .copyDoc written (.broken reason) none
  | n => n

theorem settle_restates (m : Model) (filled : Target → Option Doc) :
    Node.Restates (m.settle filled) := by
  intro n
  cases n with
  | copyDoc written status content =>
    simp only [settle]
    split <;> constructor
  | _ => constructor

/-- The documentation of `u` with all copies filled. -/
noncomputable def filled? (m : Model) (u : Target) : Option Doc :=
  (m.ownDoc? u).map (Doc.rewrite (m.settle fun v =>
    open Classical in
    if _ : m.CopyEdge u v ∧ ¬m.LeadsToCycle v then m.filled? v else none))
termination_by (m.copied u).ncard
decreasing_by exact copied_lt ‹_ ∧ _›.1 ‹_ ∧ _›.2

/-- A copy that is filled asks for a documented owner that leads to no cycle. -/
theorem filled?_eq (m : Model) (u : Target) :
    m.filled? u = (m.ownDoc? u).map (Doc.rewrite (m.settle m.filled?)) := by
  rw [filled?]
  refine Option.map_congr fun doc own => Doc.rewrite_congr fun n hn _ => ?_
  cases n with
  | copyDoc written status content =>
    simp only [settle]
    cases h : m.outcome written with
    | error reason => rfl
    | ok found =>
      obtain ⟨finds, documented, acyclic⟩ := outcome_ok.mp h
      have asked : written ∈ doc.copyTargets := List.mem_filterMap.mpr ⟨_, hn, rfl⟩
      have edge : m.CopyEdge u (m.holder found) := copyEdge_iff.mpr
        ⟨doc, own, written, asked, found, finds, rfl, Option.isSome_iff_ne_none.mpr documented⟩
      simp only [dif_pos (And.intro edge acyclic)]
  | _ => rfl

theorem filled?_eq_none {m : Model} {u : Target} : m.filled? u = none ↔ m.ownDoc? u = none := by
  rw [filled?_eq, Option.map_eq_none_iff]

theorem isCyclic_rewrite_settle {m : Model} {filled : Target → Option Doc} {n : Node} :
    Copies.isCyclic (n.rewrite (m.settle filled)) = true ↔
      ∃ written, n.copyTarget? = some written ∧ m.outcome written = .error .cycle := by
  cases n with
  | copyDoc written status content =>
    rw [Node.rewrite_of_leaf _ rfl]
    simp only [settle, Node.copyTarget?, Option.some.injEq, exists_eq_left']
    cases m.outcome written with
    | ok found => simp [Copies.isCyclic]
    | error reason => cases reason <;> simp [Copies.isCyclic]
  | _ => simp [Node.rewrite_eq, Node.isContainer, Node.mapParts, settle, Node.copyTarget?,
      Copies.isCyclic]

/-- The copies that fail for a cycle show whether a cycle can be reached. -/
theorem any_isCyclic_filled {m : Model} {u : Target} {doc : Doc} (h : m.filled? u = some doc) :
    (Doc.nodes doc).any Copies.isCyclic = true ↔ m.LeadsToCycle u := by
  rw [filled?_eq] at h
  obtain ⟨own, ownDoc, rfl⟩ := Option.map_eq_some_iff.mp h
  rw [Doc.nodes_rewrite (settle_restates m m.filled?).keepsLeaves, leadsToCycle_iff]
  simp only [List.any_map, List.any_eq_true, Function.comp_apply, isCyclic_rewrite_settle,
    outcome_cycle]
  constructor
  · rintro ⟨n, hn, written, asks, found, finds, cyclic⟩
    have asked : written ∈ own.copyTargets := List.mem_filterMap.mpr ⟨n, hn, asks⟩
    have documented := docOf_isSome.mp cyclic.documented
    exact ⟨_, copyEdge_iff.mpr ⟨own, ownDoc, written, asked, found, finds, rfl, documented⟩, cyclic⟩
  · rintro ⟨_, edge, cyclic⟩
    obtain ⟨doc, ownDoc', written, asked, found, finds, rfl, -⟩ := copyEdge_iff.mp edge
    obtain rfl : own = doc := Option.some.inj (ownDoc.symm.trans ownDoc')
    obtain ⟨n, hn, asks⟩ := List.mem_filterMap.mp asked
    exact ⟨n, hn, written, asks, found, finds, cyclic⟩

theorem copy_filled {m : Model} {u : Target} {doc : Doc} (h : m.filled? u = some doc) :
    (m.LeadsToCycle u → Copies.copy doc = .error .cycle) ∧
      (¬m.LeadsToCycle u → Copies.copy doc = .ok doc) := by
  unfold Copies.copy
  rw [← any_isCyclic_filled h]
  exact ⟨fun cyclic => if_pos cyclic, fun acyclic => if_neg acyclic⟩

/-! ## States do not matter -/

section

variable {m : Model} (numbered : m.Numbered) {g : Node → Node} (hg : Node.Restates g)

include numbered hg

theorem copyEdge_mapDocs : (m.mapDocs fun _ => Doc.rewrite g).CopyEdge = m.CopyEdge := by
  funext u v
  simp [copyEdge_iff, ownDoc?_mapDocs numbered, NameTable.ofModel_mapDocs,
    Doc.copyTargets_rewrite hg]

theorem leadsToCycle_mapDocs (v : Target) :
    (m.mapDocs fun _ => Doc.rewrite g).LeadsToCycle v ↔ m.LeadsToCycle v := by
  unfold LeadsToCycle
  rw [copyEdge_mapDocs numbered hg]

theorem outcome_mapDocs : (m.mapDocs fun _ => Doc.rewrite g).outcome = m.outcome := by
  have cycles := leadsToCycle_mapDocs numbered hg
  have docs (found : Target) :
      (m.mapDocs fun _ => Doc.rewrite g).docAt? found = none ↔ m.docAt? found = none := by
    simp [docAt?, ownDoc?_mapDocs numbered]
  funext written
  cases h : m.outcome written with
  | ok found =>
    rw [outcome_ok] at h ⊢
    rwa [NameTable.ofModel_mapDocs, Ne, docs, holder_mapDocs, cycles]
  | error reason =>
    cases reason with
    | notFound =>
      rw [outcome_notFound] at h ⊢
      rwa [NameTable.ofModel_mapDocs]
    | undocumented =>
      rw [outcome_undocumented] at h ⊢
      simpa only [NameTable.ofModel_mapDocs, docs] using h
    | cycle =>
      rw [outcome_cycle] at h ⊢
      simpa only [NameTable.ofModel_mapDocs, holder_mapDocs, cycles] using h

theorem settle_mapDocs (filled : Target → Option Doc) :
    (m.mapDocs fun _ => Doc.rewrite g).settle filled = m.settle filled := by
  unfold settle
  simp only [outcome_mapDocs numbered hg, holder_mapDocs]

end

end Model

end DocComment
