import DocComment.Proofs.Markup.EditOrder
import DocComment.Proofs.Reference.Fill

/-!
# What resolution reports

Resolution reports repeated anchors, then references, then copies. It does not look at what was
reported before, and the nodes that it reports on are nodes of the resolved model.
-/

set_option autoImplicit false

namespace DocComment

namespace Model

/-- All documentation is met in the order of its owners. -/
theorem traverseDocs_meets {σ : Type} (change : Target → Doc → StateM σ Doc) (m : Model) :
    Meets (fun p : Target × Doc => change p.1 p.2) m.documented (m.traverseDocs change) := by
  have each {α : Type} (l : List α) (docOf : α → Option Doc) (owner : α → Target)
      (put : α → Option Doc → α) :
      Meets (fun p : Target × Doc => change p.1 p.2)
        (l.filterMap fun a => (docOf a).map (owner a, ·))
        (l.mapM fun a => return put a (← (docOf a).mapM (change (owner a)))) := by
    rw [List.filterMap_eq_flatMap_toList]
    refine .mapM fun a _ => ?_
    cases docOf a with
    | none => exact .pure _
    | some doc => exact ((Meets.single (owner a, doc)).andPure some).andPure _
  have symbols := each m.symbols Symbol.doc (fun s => .symbol s.id) fun s doc => { s with doc }
  have groups := each m.groups Group.doc (fun g => .group g.id) fun g doc => { g with doc }
  have files := each m.files File.doc (fun f => .file f.id) fun f doc => { f with doc }
  rw [documented, List.append_assoc]
  exact symbols.bind fun _ => groups.bind fun _ => files.andPure _

theorem resolve_snd (m : Model) :
    m.resolve.2 =
      (splitAnchors [] m.clear.anchorNodes).2.map m.clear.repeatedAnchor ++
        ((m.anchored.resolveReferences (NameTable.ofModel m.anchored)).run []).2 ++
        ((Copies.fillModel m.linked (NameTable.ofModel m.linked)).run .empty).2.failed.map fun f =>
          m.linked.unresolvedReport f.owner f.target f.reason := by
  have names : NameTable.ofModel m.linked = NameTable.ofModel m.anchored :=
    NameTable.ofModel_mapDocs _ _
  rw [names, linked, ← resolveReferences_fst _ _ []]
  rfl

end Model

/-! ## What resolution does not read -/

/-- A change of a model that leaves alone all documentation and everything that resolution looks
documentation, names and files up in. -/
structure Model.Unread (f : Model → Model) : Prop where
  traverseDocs : ∀ {σ : Type} (change : Target → Doc → StateM σ Doc) (m : Model),
    (f m).traverseDocs change = f <$> m.traverseDocs change
  mapDocs : ∀ (g : Target → Doc → Doc) (m : Model), (f m).mapDocs g = f (m.mapDocs g)
  withAnchors : ∀ (m : Model) (anchors : List Anchor),
    { f m with anchors := anchors } = f { m with anchors := anchors }
  documented : ∀ m, (f m).documented = m.documented
  ownDoc? : ∀ m, (f m).ownDoc? = m.ownDoc?
  holder : ∀ m, (f m).holder = m.holder
  fileOf? : ∀ m, (f m).fileOf? = m.fileOf?
  names : ∀ m, NameTable.ofModel (f m) = NameTable.ofModel m

section

variable {f : Model → Model} (h : Model.Unread f) (m : Model) (names : NameTable)

include h

theorem Copies.fillNode_unread
    (source : Target → StateM Copies (Except RefFailure Doc)) (owner : Target) :
    fillNode (f m) names source owner = fillNode m names source owner := by
  funext n
  cases n <;> simp only [fillNode, h.holder]

theorem Copies.fill_unread (waiting : List Target) (u : Target) :
    fill (f m) names waiting u = fill m names waiting u := by
  induction size : waiting.length using Nat.strong_induction_on generalizing waiting u with
  | _ count ih =>
    funext s
    change (fill (f m) names waiting u).run s = (fill m names waiting u).run s
    rw [fill_run, fill_run, h.ownDoc?]
    by_cases waits : u ∈ waiting
    · have inner : fill (f m) names (waiting.erase u) = fill m names (waiting.erase u) := by
        funext v
        refine ih _ ?_ _ v rfl
        have := List.length_pos_of_mem waits
        rw [List.length_erase_of_mem waits]
        omega
      rw [inner, fillNode_unread h]
    · simp only [if_neg waits]

theorem Copies.fillModel_unread : fillModel (f m) names = f <$> fillModel m names := by
  unfold fillModel
  rw [h.traverseDocs, h.documented]
  congr 2
  funext u doc
  rw [fill_unread h]

namespace Model

theorem unresolvedReport_unread : (f m).unresolvedReport = m.unresolvedReport := by
  funext owner target reason
  rw [unresolvedReport, unresolvedReport, h.fileOf?]

theorem resolveReferences_unread :
    resolveReferences (f m) names = f <$> resolveReferences m names := by
  unfold resolveReferences
  rw [h.traverseDocs]
  congr 2
  funext owner doc
  congr 1
  funext n
  cases n <;> simp only [resolveNode, unresolvedReport_unread h]

theorem clear_unread : (f m).clear = f m.clear := by
  rw [clear_eq, clear_eq, h.mapDocs, h.withAnchors]

theorem anchorNodes_unread : (f m).anchorNodes = m.anchorNodes := by
  rw [anchorNodes, anchorNodes, h.documented]

theorem anchored_unread : (f m).anchored = f m.anchored := by
  unfold anchored
  rw [clear_unread h, anchorNodes_unread h, h.withAnchors]

theorem linked_unread : (f m).linked = f m.linked := by
  unfold linked
  rw [anchored_unread h, h.names, h.mapDocs]

/-- Resolution passes on what it does not read. -/
theorem resolve_unread : (f m).resolve = (f m.resolve.1, m.resolve.2) := by
  have repeated : (f m.clear).repeatedAnchor = m.clear.repeatedAnchor := by
    funext a
    rw [repeatedAnchor, repeatedAnchor, h.fileOf?]
  apply Prod.ext
  · rw [resolve_fst, resolve_fst, linked_unread h, h.names, Copies.fillModel_unread h]
    rfl
  · rw [resolve_snd, resolve_snd, clear_unread h, anchored_unread h, linked_unread h, h.names,
      h.names, repeated, anchorNodes_unread h, Copies.fillModel_unread h,
      resolveReferences_unread h, unresolvedReport_unread h]
    rfl

end Model

end

/-! ## Earlier reports -/

/-- The same model with other reports. -/
def Model.withReports (m : Model) (reports : List Diagnostic) : Model :=
  { m with diagnostics := reports }

theorem Model.withReports_unread (reports : List Diagnostic) :
    Unread (·.withReports reports) where
  traverseDocs change m := by
    unfold Model.traverseDocs
    simp only [map_bind, map_pure]
    rfl
  mapDocs _ _ := rfl
  withAnchors _ _ := rfl
  documented _ := rfl
  ownDoc? _ := rfl
  holder _ := rfl
  fileOf? _ := rfl
  names _ := rfl

/-- Resolution passes earlier reports on. -/
theorem Model.resolve_withReports (m : Model) (reports : List Diagnostic) :
    (m.withReports reports).resolve = (m.resolve.1.withReports reports, m.resolve.2) :=
  resolve_unread (withReports_unread reports) m

end DocComment
