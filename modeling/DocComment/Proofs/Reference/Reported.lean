import DocComment.Proofs.Reference.Complete
import DocComment.Proofs.Reference.Tally

/-!
# What is reported

What resolution reports can be read off the resolved model: the documentation of its symbols, groups
and files in this order, the broken references and copies and the anchors that stand in it, and the
file that each owner belongs to.
-/

set_option autoImplicit false

namespace DocComment

namespace Model

/-- The documentation of all symbols, then that of all groups, then that of all files. -/
def ownDocs (m : Model) : List (Target × Doc) :=
  (m.symbols.mapIdx fun i s => s.doc.map (Target.symbol i, ·)).reduceOption ++
    (m.groups.mapIdx fun i g => g.doc.map (Target.group i, ·)).reduceOption ++
    (m.files.mapIdx fun i f => f.doc.map (Target.file i, ·)).reduceOption

/-- What `view` shows of the nodes of all documentation, one after another. -/
def met {α : Type} (m : Model) (view : Node → Option α) : List (Target × α) :=
  m.ownDocs.flatMap fun p => (p.2.nodes.filterMap view).map (p.1, ·)

/-- The file that an owner belongs to: the first one that declares a symbol, the first one of a
group, or the file itself. -/
def homeOf? (m : Model) : Target → Option File
  | .symbol i => m.symbols[i]?.bind fun s => m.files[s.file]?
  | .group i => m.groups[i]?.bind fun g => g.files.head?.bind fun file => m.files[file]?
  | .file i => m.files[i]?
  | .anchor _ => none

/-- A report on the documentation of `owner`. It has a file but no line. -/
def reportOn (m : Model) (owner : Target) (problem : Problem) : Diagnostic :=
  ⟨problem, (m.homeOf? owner).map File.path, none⟩

/-! ## Documentation in order -/

theorem reduceOption_mapIdx_of_counted {α : Type} {number : α → Nat} {l : List α}
    (counted : CountedBy number l) (kind : Nat → Target) (docOf : α → Option Doc) :
    (l.mapIdx fun i a => (docOf a).map (kind i, ·)).reduceOption =
      l.filterMap fun a => (docOf a).map (kind (number a), ·) := by
  have placed : (l.mapIdx fun i a => (docOf a).map (kind i, ·)) =
      l.map fun a => (docOf a).map (kind (number a), ·) := by
    apply List.ext_getElem (by simp)
    intro i hi _
    rw [List.length_mapIdx] at hi
    simp only [List.getElem_mapIdx, List.getElem_map, counted.number_getElem hi]
  rw [placed, List.reduceOption, List.filterMap_map]
  rfl

theorem ownDocs_eq {m : Model} (numbered : m.Numbered) : m.ownDocs = m.documented := by
  unfold ownDocs documented
  rw [reduceOption_mapIdx_of_counted numbered.symbols,
    reduceOption_mapIdx_of_counted numbered.groups, reduceOption_mapIdx_of_counted numbered.files]

theorem met_eq {α : Type} {m : Model} (numbered : m.Numbered) (view : Node → Option α) :
    m.met view = m.shown view := by
  rw [met, shown, ownDocs_eq numbered]

/-! ## Reports -/

theorem fileOf?_eq (m : Model) {owner : Target} (own : ∀ i, owner ≠ .anchor i) :
    m.fileOf? owner = (m.homeOf? owner).map File.path := by
  cases owner with
  | symbol i => cases known : m.symbols[i]? <;> simp [fileOf?, holder, homeOf?, known]
  | group i =>
    cases known : m.groups[i]? with
    | none => simp [fileOf?, holder, homeOf?, known]
    | some g => cases first : g.files.head? <;> simp [fileOf?, holder, homeOf?, known, first]
  | file i => rfl
  | anchor i => exact absurd rfl (own i)

theorem brokenReport_eq_reportOn {m : Model} {b : Target × Text × RefFailure}
    (own : ∀ i, b.1 ≠ .anchor i) :
    m.brokenReport b = m.reportOn b.1 (.unresolved b.2.1 b.2.2) :=
  congrArg (Diagnostic.mk _ · _) (m.fileOf?_eq own)

theorem repeatedAnchor_eq_reportOn {m : Model} {a : Anchor} (own : ∀ i, a.owner ≠ .anchor i) :
    m.repeatedAnchor a = m.reportOn a.owner (.repeatedAnchor a.name) :=
  congrArg (Diagnostic.mk _ · _) (m.fileOf?_eq own)

end Model

theorem repeated_map {α β κ : Type} [BEq κ] (key : β → κ) (f : α → β) (l : List α) :
    repeated key (l.map f) = (repeated (key ∘ f) l).map f := by
  induction l using List.reverseRecOn with
  | nil => rfl
  | append_singleton l a ih =>
    rw [List.map_append, List.map_singleton, repeated_concat, repeated_concat, ih, List.any_map,
      List.map_append]
    congr 1
    simp only [Function.comp_def]
    split <;> rfl

namespace Model

variable {m : Model} (numbered : m.Numbered)

include numbered

theorem map_reportOn_broken :
    (m.met Node.broken?).map (fun b => m.reportOn b.1 (.unresolved b.2.1 b.2.2)) =
      (m.shown Node.broken?).map m.brokenReport := by
  rw [met_eq numbered]
  exact List.map_congr_left fun b hb => (brokenReport_eq_reportOn (owner_of_mem_shown hb)).symm

theorem anchorNodes_eq_met :
    m.anchorNodes = (m.met Node.anchorName?).map fun a => ⟨a.2, a.1⟩ := by
  rw [anchorNodes_eq, met_eq numbered]

theorem map_reportOn_repeated :
    (repeated Prod.snd (m.met Node.anchorName?)).map
        (fun a => m.reportOn a.1 (.repeatedAnchor a.2)) =
      (repeated Anchor.name m.anchorNodes).map m.repeatedAnchor := by
  rw [anchorNodes_eq_met numbered, repeated_map, List.map_map]
  refine List.map_congr_left fun a ha => ?_
  have mem : (⟨a.2, a.1⟩ : Anchor) ∈ m.anchorNodes := by
    rw [anchorNodes_eq_met numbered]
    exact List.mem_map_of_mem (mem_of_mem_repeated ha)
  exact (repeatedAnchor_eq_reportOn (owner_of_mem_anchorNodes mem)).symm

end Model

/-- One report for each reference and each copy that ends up broken, and one for each anchor whose
name came before. The anchors of the model are the first of each name. -/
theorem resolve_reports (options : Options) (contributions : List Contribution) :
    let m := Model.ofContributions options contributions
    let r := m.resolve.1
    let anchors := r.met Node.anchorName?
    m.resolve.2.Perm
      ((r.met Node.broken?).map (fun b => r.reportOn b.1 (.unresolved b.2.1 b.2.2)) ++
        (repeated Prod.snd anchors).map fun a => r.reportOn a.1 (.repeatedAnchor a.2)) ∧
    r.anchors.map Anchor.name = (anchors.map Prod.snd).eraseDups ∧
    ∀ a ∈ r.anchors, anchors.find? (·.2 == a.name) = some (a.owner, a.name) := by
  intro m r anchors
  have numbered : m.Numbered := Model.ofContributions_numbered options contributions
  have known : r.anchors = (Model.splitAnchors [] r.anchorNodes).1 := by
    rw [Model.anchors_eq numbered, Model.anchorNodes_resolve numbered]
  have settled : r.Numbered := Model.resolve_numbered numbered
  have nodes := Model.anchorNodes_eq_met settled
  refine ⟨?_, ?_, ?_⟩
  · have split : (r.shown Node.broken?).Perm
        (r.shown Node.brokenReference? ++ r.shown Node.brokenCopy?) :=
      r.shown_or fun n h => by cases n <;> simp_all [Node.brokenReference?, Node.brokenCopy?]
    rw [Model.map_reportOn_broken settled, Model.map_reportOn_repeated settled, Model.resolve_snd,
      Model.repeatedAnchor_reports numbered, Model.reference_reports numbered, List.append_assoc]
    refine List.perm_append_comm.trans (.append_right _ ?_)
    refine (List.Perm.append_left _ (Copies.copy_reports numbered)).trans ?_
    rw [← List.map_append]
    exact split.symm.map r.brokenReport
  · rw [known, Model.splitAnchors_fst_names, nodes]
    simp [Function.comp_def, anchors]
  · rw [known]
    intro a ha
    have first := (Model.splitAnchors_fst_first _ _ a ha).2
    rw [nodes, List.find?_map] at first
    obtain ⟨p, found, rfl⟩ := Option.map_eq_some_iff.mp first
    exact found

end DocComment
