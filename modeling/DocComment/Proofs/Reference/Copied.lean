import DocComment.Proofs.Reference.Complete

/-!
# What becomes of copies

A copy gets the documentation of the owner of what it asks for, as it is in the resolved model. It
fails if nothing has the name, if the owner has no documentation, and if a cycle of copies can be
reached from the owner. None of this depends on the order in which the search goes through owners.
-/

set_option autoImplicit false

namespace DocComment

namespace Model

/-- What is found belongs to some owner. -/
theorem Has.exists_heldBy {m : Model} {found : Target} (h : m.Has found) :
    ∃ owner, m.HeldBy found owner := by
  cases found with
  | symbol i => exact ⟨_, .symbol i⟩
  | group i => exact ⟨_, .group i⟩
  | file i => exact ⟨_, .file i⟩
  | anchor i => exact ⟨_, .anchor (List.getElem?_eq_getElem h)⟩

section

variable {m : Model} {written : Text}

/-- A copy is undocumented if its owner has no documentation. -/
theorem outcome_undocumented_iff (numbered : m.Numbered) :
    m.outcome written = .error .undocumented ↔
      ∃ found owner, (NameTable.ofModel m).find? written = some found ∧ m.HeldBy found owner ∧
        ¬∃ doc, m.DocOf owner doc := by
  rw [outcome_undocumented]
  constructor
  · rintro ⟨found, finds, undocumented⟩
    obtain ⟨owner, held⟩ := (has_of_find? numbered finds).exists_heldBy
    refine ⟨found, owner, finds, held, ?_⟩
    rwa [docOf_isSome, ← held.holder_eq, Option.not_isSome_iff_eq_none]
  · rintro ⟨found, owner, finds, held, undocumented⟩
    refine ⟨found, finds, ?_⟩
    rwa [docOf_isSome, ← held.holder_eq, Option.not_isSome_iff_eq_none] at undocumented

/-- A copy runs into a cycle if its owner leads to one. -/
theorem outcome_cycle_iff :
    m.outcome written = .error .cycle ↔
      ∃ found owner, (NameTable.ofModel m).find? written = some found ∧ m.HeldBy found owner ∧
        m.LeadsToCycle owner := by
  rw [outcome_cycle]
  constructor
  · rintro ⟨found, finds, cyclic⟩
    exact ⟨found, _, finds, heldBy_holder (docOf_isSome.mp cyclic.documented), cyclic⟩
  · rintro ⟨found, owner, finds, held, cyclic⟩
    exact ⟨found, finds, held.holder_eq ▸ cyclic⟩

end

theorem HeldBy.owner_eq {m : Model} {i : Nat} {a : Anchor} {owner : Target}
    (h : m.HeldBy (.anchor i) owner) (known : m.anchors[i]? = some a) : owner = a.owner := by
  cases h with
  | anchor found => rw [Option.some.inj (found.symm.trans known)]

end Model

/-- What has become of a copy that asks for `written`, by the names and the graph of copies of `g`,
where `r` is the resolved model. -/
structure CopySettled (g r : Model) (written : Text) (status : RefStatus)
    (content : Option Doc) : Prop where
  notFound : status = .broken .notFound ↔ (NameTable.ofModel g).find? written = none
  undocumented : status = .broken .undocumented ↔
    ∃ found owner, (NameTable.ofModel g).find? written = some found ∧ g.HeldBy found owner ∧
      ¬∃ doc, g.DocOf owner doc
  cycle : status = .broken .cycle ↔
    ∃ found owner, (NameTable.ofModel g).find? written = some found ∧ g.HeldBy found owner ∧
      g.LeadsToCycle owner
  otherwise : (∀ reason, status ≠ .broken reason) →
    ∃ found owner doc, (NameTable.ofModel g).find? written = some found ∧
      g.HeldBy found owner ∧ status = .resolved found written ∧ r.DocOf owner doc ∧
        content = some doc

/-- What the search answers where it is asked for the documentation of `u`. -/
inductive CopyAnswered (g r : Model) (u : Target) : Except RefFailure Doc → Prop
  | undocumented : (¬∃ doc, g.DocOf u doc) → CopyAnswered g r u (.error .undocumented)
  | cycle : g.LeadsToCycle u → CopyAnswered g r u (.error .cycle)
  | copied {doc : Doc} : r.DocOf u doc → ¬g.LeadsToCycle u → CopyAnswered g r u (.ok doc)

section

variable {m : Model} (numbered : m.Numbered)

include numbered

theorem Model.docOf_resolve {u : Target} :
    (∃ doc, m.resolve.1.DocOf u doc) ↔ ∃ doc, m.indexed.DocOf u doc := by
  rw [docOf_isSome, docOf_isSome, ownDoc?_resolve_eq numbered, Option.isSome_map]
  rfl

theorem copySettled_of_rewrite {n : Node} {written : Text} {status : RefStatus}
    {content : Option Doc}
    (h : n.rewrite (m.indexed.settleNode m.resolve.1.ownDoc?) = .copyDoc written status content) :
    CopySettled m.indexed m.resolve.1 written status content := by
  have became := Node.copyDoc_of_rewrite h
  have broken (reason : RefFailure) :
      status = .broken reason ↔ m.indexed.outcome written = .error reason := by
    obtain ⟨found, result, same, -⟩ | ⟨other, result, same, -⟩ := became
    · simp [result, same]
    · simp [result, same, eq_comm]
  refine ⟨(broken _).trans Model.outcome_notFound,
    (broken _).trans (Model.outcome_undocumented_iff (Model.indexed_numbered numbered)),
    (broken _).trans Model.outcome_cycle_iff, fun unbroken => ?_⟩
  obtain ⟨found, result, rfl, rfl⟩ | ⟨reason, -, same, -⟩ := became
  · obtain ⟨finds, documented, -⟩ := Model.outcome_ok.mp result
    have some := Option.isSome_iff_ne_none.mpr documented
    obtain ⟨doc, own⟩ := (Model.docOf_resolve numbered).mpr (Model.docOf_isSome.mpr some)
    exact ⟨found, _, doc, finds, Model.heldBy_holder some, rfl, own, Model.docOf_iff.mp own⟩
  · exact absurd same (unbroken reason)

theorem Model.leadsToCycle_linked {u : Target} :
    m.linked.LeadsToCycle u ↔ m.indexed.LeadsToCycle u := by
  have restates := (linkNode_restates (NameTable.ofModel m.indexed)).comp clearNode_restates
  rw [linked_eq, leadsToCycle_mapDocs (indexed_numbered numbered) restates]

theorem copyAnswered_answer (u : Target) :
    CopyAnswered m.indexed m.resolve.1 u (Copies.answer m.linked u) := by
  have own : m.linked.filled? u = m.resolve.1.ownDoc? u := by rw [Model.ownDoc?_resolve numbered]
  have cyclic := Model.leadsToCycle_linked numbered (u := u)
  cases filled : m.linked.filled? u with
  | none =>
    have undocumented : ¬∃ doc, m.indexed.DocOf u doc := by
      rw [← Model.docOf_resolve numbered, Model.docOf_isSome, ← own, filled]
      simp
    simpa [Copies.answer, filled] using CopyAnswered.undocumented undocumented
  | some doc =>
    have result := Model.copy_filled filled
    rw [cyclic] at result
    by_cases loops : m.indexed.LeadsToCycle u
    · simpa [Copies.answer, filled, result.1 loops] using CopyAnswered.cycle loops
    · have found : m.resolve.1.DocOf u doc := Model.docOf_iff.mpr (own.symm.trans filled)
      simpa [Copies.answer, filled, result.2 loops] using CopyAnswered.copied found loops

end

/-- What becomes of the copies of a model is decided by its graph of copies, and the search finds
it in whatever order it is asked for owners. -/
theorem resolve_settles_copies (options : Options) (contributions : List Contribution) :
    let m := Model.ofContributions options contributions
    let r := m.resolve.1
    let g := { m with anchors := r.anchors }
    (∀ u targets, (∃ doc, r.DocOf u doc ∧ doc.copyTargets = targets) ↔
      ∃ doc, m.DocOf u doc ∧ doc.copyTargets = targets) ∧
    (∀ u doc, r.DocOf u doc → ∀ written status content,
      Node.copyDoc written status content ∈ Doc.nodes doc →
        CopySettled g r written status content) ∧
    ∀ order : List Target,
      let search := (order.mapM (Copies.fill m.linked (NameTable.ofModel m.linked)
        (m.linked.documented.map Prod.fst))).run .empty
      (∀ u ∈ order, ∀ doc, search.2.filled.lookup u = some doc ↔ r.DocOf u doc) ∧
        List.Forall₂ (CopyAnswered g r) order search.1 := by
  intro m r g
  have numbered : m.Numbered := Model.ofContributions_numbered options contributions
  have indexed : g = m.indexed := Model.anchors_resolve numbered
  refine ⟨fun u targets => ?_, fun u doc own written status content inside => ?_, fun order => ?_⟩
  · have same : (r.ownDoc? u).map Doc.copyTargets = (m.ownDoc? u).map Doc.copyTargets := by
      rw [Model.ownDoc?_resolve_eq numbered, Option.map_map]
      refine Option.map_congr fun doc _ => ?_
      exact Doc.copyTargets_rewrite (m.indexed.settleNode_restates _) doc
    simp only [Model.docOf_iff, ← Option.map_eq_some_iff, same]
  · obtain ⟨n, became⟩ := Model.exists_rewrite_of_mem_nodes numbered (Model.docOf_iff.mp own) inside
    rw [indexed]
    exact copySettled_of_rewrite numbered became
  · intro search
    obtain ⟨answers, -, table⟩ := Copies.fills_spec (Model.linked_numbered numbered) order
      (Copies.empty_faithful m.linked)
    refine ⟨fun u asked doc => ?_, ?_⟩
    · have filled : search.2.filled.lookup u = m.linked.filled? u := table u asked
      rw [filled, Model.docOf_iff, Model.ownDoc?_resolve numbered]
    · have all : search.1 = order.map (Copies.answer m.linked) := answers
      rw [all, indexed, List.forall₂_map_right_iff, List.forall₂_same]
      exact fun u _ => copyAnswered_answer numbered u

/-- Two functions that copy each other, a third one that copies one of them, and a fourth one that
copies an anchor in the documentation of a fifth. -/
def mixedCopies : List Contribution :=
  let function (name : String) (detail : List Node) : Event :=
    .declare ⟨.function, name.toList, name.toList, none⟩ (some { detail }) [] 1
  let copying (name target : String) : Event :=
    function name [.copyDoc target.toList .pending none]
  [⟨0, "io.h".toList, [], none,
    [copying "open" "close", copying "close" "open", copying "flush" "close",
      copying "read" "modes", function "write" [.anchor "modes".toList]], []⟩]

/-- What a copy asks for, and what has become of it. -/
def Node.copyState? : Node → Option (Text × RefStatus)
  | .copyDoc written status _ => some (written, status)
  | _ => none

theorem Model.exists_copyDoc {r : Model} {u : Target} {written : Text} {status : RefStatus}
    (h : (r.ownDoc? u).map (fun doc => doc.nodes.filterMap Node.copyState?) =
      some [(written, status)]) :
    ∃ doc content, r.DocOf u doc ∧ Node.copyDoc written status content ∈ Doc.nodes doc := by
  obtain ⟨doc, own, shown⟩ := Option.map_eq_some_iff.mp h
  have here : (written, status) ∈ doc.nodes.filterMap Node.copyState? := by simp [shown]
  obtain ⟨n, inside, state⟩ := List.mem_filterMap.mp here
  cases n with
  | copyDoc asked found content =>
    obtain ⟨rfl, rfl⟩ : asked = written ∧ found = status := by simpa [Node.copyState?] using state
    exact ⟨doc, content, docOf_iff.mpr own, inside⟩
  | _ => cases state

/-- The third copy fails although its own owner is on no cycle. The fourth one gets the
documentation that holds the anchor. -/
theorem mixedCopies_settled :
    let m := Model.ofContributions {} mixedCopies
    let r := m.resolve.1
    let g := { m with anchors := r.anchors }
    (∃ doc content, r.DocOf (.symbol 2) doc ∧
      Node.copyDoc "close".toList (.broken .cycle) content ∈ Doc.nodes doc ∧
      ∃ found owner, (NameTable.ofModel g).find? "close".toList = some found ∧
        g.HeldBy found owner ∧ g.LeadsToCycle owner) ∧
    ∃ doc source, r.DocOf (.symbol 3) doc ∧
      Node.copyDoc "modes".toList (.resolved (.anchor 0) "modes".toList) (some source) ∈
        Doc.nodes doc ∧
      g.HeldBy (.anchor 0) (.symbol 4) ∧ r.DocOf (.symbol 4) source := by
  have settled := (resolve_settles_copies {} mixedCopies).2.1
  have third : ((Model.ofContributions {} mixedCopies).resolve.1.ownDoc? (.symbol 2)).map
      (fun doc => doc.nodes.filterMap Node.copyState?) =
        some [("close".toList, .broken .cycle)] := by
    decide +kernel
  have fourth : ((Model.ofContributions {} mixedCopies).resolve.1.ownDoc? (.symbol 3)).map
      (fun doc => doc.nodes.filterMap Node.copyState?) =
        some [("modes".toList, .resolved (.anchor 0) "modes".toList)] := by
    decide +kernel
  have anchor : (Model.ofContributions {} mixedCopies).resolve.1.anchors[0]? =
      some ⟨"modes".toList, .symbol 4⟩ := by
    decide +kernel
  generalize Model.ofContributions {} mixedCopies = collected at *
  intro m r g
  constructor
  · obtain ⟨doc, content, own, inside⟩ := Model.exists_copyDoc third
    have state := settled _ doc own _ _ content inside
    exact ⟨doc, content, own, inside, state.cycle.mp rfl⟩
  · obtain ⟨doc, content, own, inside⟩ := Model.exists_copyDoc fourth
    have state := settled _ doc own _ _ content inside
    obtain ⟨found, owner, source, -, held, same, copied, rfl⟩ := state.otherwise (by simp)
    obtain ⟨rfl, -⟩ := RefStatus.resolved.inj same
    obtain rfl : owner = .symbol 4 := held.owner_eq anchor
    exact ⟨doc, source, own, inside, held, copied⟩

end DocComment
