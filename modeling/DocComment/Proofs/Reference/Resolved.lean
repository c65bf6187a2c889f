import DocComment.Proofs.Reference.Fill

/-!
# The resolved model

All passes together change the state of each node once, by the names and the graph of copies of
the model with its anchors.
-/

set_option autoImplicit false

namespace DocComment

namespace Model

/-- The model that references are looked up in: nothing is resolved, but the anchors are known. -/
def indexed (m : Model) : Model := { m with anchors := m.anchored.anchors }

/-- What a node becomes when the documentation of owners becomes `docs`. -/
noncomputable def settleNode (m : Model) (docs : Target → Option Doc) : Node → Node :=
  m.settle docs ∘ linkNode (NameTable.ofModel m) ∘ clearNode

theorem settleNode_restates (m : Model) (docs : Target → Option Doc) :
    Node.Restates (m.settleNode docs) :=
  (settle_restates m docs).comp ((linkNode_restates _).comp clearNode_restates)

theorem anchored_eq (m : Model) :
    m.anchored = m.indexed.mapDocs fun _ => Doc.rewrite clearNode := by
  change { m.clear with anchors := m.anchored.anchors } = _
  rw [clear_eq]
  rfl

theorem linked_eq (m : Model) :
    m.linked =
      m.indexed.mapDocs fun _ =>
        Doc.rewrite (linkNode (NameTable.ofModel m.indexed) ∘ clearNode) := by
  have names : NameTable.ofModel m.anchored = NameTable.ofModel m.indexed := by
    rw [anchored_eq, NameTable.ofModel_mapDocs]
  unfold linked
  rw [names, anchored_eq, mapDocs_mapDocs]
  congr 1
  funext _ doc
  exact Doc.rewrite_rewrite clearNode_restates.keepsLeaves _ doc

variable {m : Model}

theorem indexed_numbered (numbered : m.Numbered) : m.indexed.Numbered :=
  ⟨numbered.files, numbered.groups, numbered.symbols⟩

theorem ownDoc?_resolve (numbered : m.Numbered) : m.resolve.1.ownDoc? = m.linked.filled? := by
  funext u
  rw [resolve_eq_linked numbered, ownDoc?_mapDocs (linked_numbered numbered), ← filled?_eq]

theorem resolve_eq (numbered : m.Numbered) :
    m.resolve.1 =
      m.indexed.mapDocs fun _ => Doc.rewrite (m.indexed.settleNode m.resolve.1.ownDoc?) := by
  have restates := (linkNode_restates (NameTable.ofModel m.indexed)).comp clearNode_restates
  calc m.resolve.1
      = m.linked.mapDocs fun _ => Doc.rewrite (m.linked.settle m.resolve.1.ownDoc?) := by
        rw [ownDoc?_resolve numbered]
        exact resolve_eq_linked numbered
    _ = m.indexed.mapDocs fun _ => Doc.rewrite (m.indexed.settleNode m.resolve.1.ownDoc?) := by
        rw [linked_eq, settle_mapDocs (indexed_numbered numbered) restates, mapDocs_mapDocs]
        congr 1
        funext _ doc
        exact Doc.rewrite_rewrite restates.keepsLeaves _ doc

theorem resolve_numbered (numbered : m.Numbered) : m.resolve.1.Numbered := by
  rw [resolve_eq numbered]
  exact mapDocs_numbered (indexed_numbered numbered) _

theorem anchors_resolve (numbered : m.Numbered) :
    { m with anchors := m.resolve.1.anchors } = m.indexed := by
  rw [resolve_eq numbered]
  rfl

/-- The documentation of an owner in the resolved model. -/
theorem ownDoc?_resolve_eq (numbered : m.Numbered) (u : Target) :
    m.resolve.1.ownDoc? u =
      (m.ownDoc? u).map (Doc.rewrite (m.indexed.settleNode m.resolve.1.ownDoc?)) := by
  conv_lhs => rw [resolve_eq numbered]
  rw [ownDoc?_mapDocs (indexed_numbered numbered)]
  rfl

theorem exists_rewrite_of_mem_nodes (numbered : m.Numbered) {u : Target} {doc : Doc} {n : Node}
    (own : m.resolve.1.ownDoc? u = some doc) (h : n ∈ Doc.nodes doc) :
    ∃ before : Node, before.rewrite (m.indexed.settleNode m.resolve.1.ownDoc?) = n := by
  rw [ownDoc?_resolve_eq numbered] at own
  obtain ⟨before, -, rfl⟩ := Option.map_eq_some_iff.mp own
  rw [Doc.nodes_rewrite (m.indexed.settleNode_restates _).keepsLeaves] at h
  obtain ⟨x, -, became⟩ := List.mem_map.mp h
  exact ⟨x, became⟩

end Model

/-! ## References -/

/-- Only a reference becomes a reference, and the names decide what it becomes. -/
theorem Node.crossRef_of_rewrite {g : Model} {docs : Target → Option Doc} {n : Node}
    {target : Text} {shown : Option Text} {status : RefStatus}
    (h : n.rewrite (g.settleNode docs) = .crossRef target shown status) :
    (∃ found text, (NameTable.ofModel g).find? target = some found ∧
        status = .resolved found text) ∨
      (NameTable.ofModel g).find? target = none ∧ status = .broken .notFound := by
  cases container : n.isContainer with
  | true =>
    rw [rewrite_of_container _ container] at h
    have impossible := isContainer_mapParts (rewrite (g.settleNode docs)) n
    rw [h, container] at impossible
    simp [isContainer] at impossible
  | false =>
    rw [rewrite_of_leaf _ container] at h
    obtain ⟨before, rfl⟩ : ∃ before, n = .crossRef target shown before := by
      have restated := g.settleNode_restates docs n
      rw [h] at restated
      cases restated <;> exact ⟨_, rfl⟩
    change g.settle docs (Model.linkNode _ (.crossRef target shown .pending)) = _ at h
    simp only [Model.linkNode] at h
    cases finds : (NameTable.ofModel g).find? target with
    | none =>
      simp only [finds, Model.settle, crossRef.injEq] at h
      exact .inr ⟨rfl, h.2.2.symm⟩
    | some found =>
      simp only [finds, Model.settle, crossRef.injEq] at h
      exact .inl ⟨found, _, rfl, h.2.2.symm⟩

/-! ## Copies -/

/-- Only a copy becomes a copy, and its outcome decides what it becomes. -/
theorem Node.copyDoc_of_rewrite {g : Model} {docs : Target → Option Doc} {n : Node}
    {written : Text} {status : RefStatus} {content : Option Doc}
    (h : n.rewrite (g.settleNode docs) = .copyDoc written status content) :
    (∃ found, g.outcome written = .ok found ∧ status = .resolved found written ∧
        content = docs (g.holder found)) ∨
      ∃ reason, g.outcome written = .error reason ∧ status = .broken reason ∧ content = none := by
  have same := (g.settleNode_restates docs).copyTarget?_rewrite n
  rw [h] at same
  cases n with
  | copyDoc target _ _ =>
    obtain rfl : written = target := Option.some.inj same
    rw [rewrite_of_leaf _ rfl] at h
    change g.settle docs (.copyDoc written .pending none) = _ at h
    simp only [Model.settle] at h
    cases result : g.outcome written with
    | ok found =>
      simp only [result, copyDoc.injEq] at h
      exact .inl ⟨found, rfl, h.2.1.symm, h.2.2.symm⟩
    | error reason =>
      simp only [result, copyDoc.injEq] at h
      exact .inr ⟨reason, rfl, h.2.1.symm, h.2.2.symm⟩
  | _ => simp [copyTarget?] at same

end DocComment
