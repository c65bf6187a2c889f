import DocComment.Proofs.Corpus.Ledger
import DocComment.Proofs.Reference.Reports
import DocComment.Proofs.Reference.Resolved

/-!
# What documentation shows

A view picks something out of the nodes of all documentation, copied documentation left out. A
change of states keeps a view that does not look at states, so the reports on anchors and on
references can be read off the resolved model.
-/

set_option autoImplicit false

namespace DocComment

/-- A view of nodes that shows nothing of containers. -/
def Node.LeafView {α : Type} (view : Node → Option α) : Prop :=
  ∀ n : Node, n.isContainer = true → view n = none

theorem Node.Restates.view_rewrite {α : Type} {view : Node → Option α} {g : Node → Node}
    (hg : Restates g) (leaf : LeafView view) (n : Node) : view (n.rewrite g) = view (g n) := by
  cases container : n.isContainer with
  | true =>
    rw [rewrite_of_container g container, leaf _ (by simpa using container),
      leaf _ ((hg n).isContainer_eq.trans container)]
  | false => rw [rewrite_of_leaf g container]

theorem Doc.filterMap_nodes_rewrite {α : Type} {view : Node → Option α} {g : Node → Node}
    (hg : Node.Restates g) (leaf : Node.LeafView view) (doc : Doc) :
    (doc.rewrite g).nodes.filterMap view = doc.nodes.filterMap (view ∘ g) := by
  rw [nodes_rewrite hg.keepsLeaves, List.filterMap_map]
  exact List.filterMap_congr fun n _ => hg.view_rewrite leaf n

def Node.anchorName? : Node → Option Text
  | .anchor name => some name
  | _ => none

theorem Node.anchorName?_eq_some {n : Node} {name : Text} :
    n.anchorName? = some name ↔ n = .anchor name := by
  cases n <;> simp [anchorName?]

theorem Node.anchorName?_leaf : LeafView anchorName? := by
  intro n h
  cases n <;> simp_all [isContainer, anchorName?]

/-- What a reference asks for that is broken, and why. -/
def Node.brokenReference? : Node → Option (Text × RefFailure)
  | .crossRef target _ (.broken reason) => some (target, reason)
  | _ => none

theorem Node.brokenReference?_leaf : LeafView brokenReference? := by
  intro n h
  cases n <;> simp_all [isContainer, brokenReference?]

/-- What a copy asks for that is broken, and why. -/
def Node.brokenCopy? : Node → Option (Text × RefFailure)
  | .copyDoc target (.broken reason) _ => some (target, reason)
  | _ => none

theorem Node.brokenCopy?_leaf : LeafView brokenCopy? := by
  intro n h
  cases n <;> simp_all [isContainer, brokenCopy?]

/-- What a reference or a copy asks for that is broken, and why. -/
def Node.broken? (n : Node) : Option (Text × RefFailure) := n.brokenReference?.or n.brokenCopy?

namespace Model

/-- What `view` shows of the nodes of all documentation, with their owners. Copied documentation
is not entered. -/
def shown {α : Type} (m : Model) (view : Node → Option α) : List (Target × α) :=
  m.documented.flatMap fun p => (p.2.nodes.filterMap view).map (p.1, ·)

theorem mem_shown {α : Type} {m : Model} {view : Node → Option α} {owner : Target} {a : α} :
    (owner, a) ∈ m.shown view ↔
      ∃ doc, (owner, doc) ∈ m.documented ∧ ∃ n ∈ Doc.nodes doc, view n = some a := by
  simp only [shown, List.mem_flatMap, List.mem_map, List.mem_filterMap, Prod.mk.injEq, Prod.exists]
  constructor
  · rintro ⟨_, doc, documented, _, held, rfl, rfl⟩
    exact ⟨doc, documented, held⟩
  · rintro ⟨doc, documented, held⟩
    exact ⟨owner, doc, documented, a, held, rfl, rfl⟩

theorem anchorNodes_eq (m : Model) :
    m.anchorNodes = (m.shown Node.anchorName?).map fun p => ⟨p.2, p.1⟩ := by
  unfold anchorNodes shown
  rw [List.map_flatMap]
  refine List.flatMap_congr fun p _ => ?_
  rw [List.map_map, List.map_filterMap]
  refine List.filterMap_congr fun n _ => ?_
  cases n <;> rfl

theorem documented_mapDocs (m : Model) (g : Target → Doc → Doc) :
    (m.mapDocs g).documented = m.documented.map fun p => (p.1, g p.1 p.2) := by
  simp [documented, mapDocs, List.filterMap_map, List.map_filterMap, Function.comp_def]

theorem shown_rewrite {α : Type} {view : Node → Option α} {g : Node → Node}
    (hg : Node.Restates g) (leaf : Node.LeafView view) (m : Model) :
    (m.mapDocs fun _ => Doc.rewrite g).shown view = m.shown (view ∘ g) := by
  unfold shown
  rw [documented_mapDocs, List.flatMap_map]
  refine List.flatMap_congr fun p _ => ?_
  rw [Doc.filterMap_nodes_rewrite hg leaf]

theorem shown_or {α : Type} (m : Model) {view view' : Node → Option α}
    (apart : ∀ n, (view n).isSome → view' n = none) :
    (m.shown fun n => (view n).or (view' n)).Perm (m.shown view ++ m.shown view') := by
  have nodes (l : List Node) : (l.filterMap fun n => (view n).or (view' n)).Perm
      (l.filterMap view ++ l.filterMap view') := by
    induction l with
    | nil => exact .nil
    | cons n rest ih =>
      cases first : view n with
      | some b => simpa [first, apart n (by simp [first])] using ih
      | none =>
        cases second : view' n with
        | some b => simpa [first, second] using ih.cons b |>.trans List.perm_middle.symm
        | none => simpa [first, second] using ih
  unfold shown
  refine (List.Perm.flatMap_left _ fun p _ => ((nodes p.2.nodes).map (p.1, ·))).trans ?_
  simp only [List.map_append]
  exact (List.flatMap_append_perm _ _ _).symm

/-- Each owner has its documentation once. -/
theorem documented_nodup {m : Model} (numbered : m.Numbered) :
    (m.documented.map Prod.fst).Nodup := by
  have part {α : Type} {number : α → Nat} {l : List α} (counted : CountedBy number l)
      {kind : Nat → Target} (inj : Function.Injective kind) (docOf : α → Option Doc) :
      (l.filterMap fun a => (docOf a).map (kind (number a), ·)).Pairwise
        fun p q => p.1 ≠ q.1 := by
    have numbers : (l.map number).Nodup := counted ▸ List.nodup_range
    refine (List.pairwise_map.mp numbers).filterMap _ fun a b differ p hp q hq same => ?_
    obtain ⟨_, -, rfl⟩ := Option.map_eq_some_iff.mp hp
    obtain ⟨_, -, rfl⟩ := Option.map_eq_some_iff.mp hq
    exact differ (inj same)
  have symbols := part numbered.symbols (fun _ _ => Target.symbol.inj) Symbol.doc
  have groups := part numbered.groups (fun _ _ => Target.group.inj) Group.doc
  have files := part numbered.files (fun _ _ => Target.file.inj) File.doc
  refine List.pairwise_map.mpr (List.pairwise_append.mpr
    ⟨List.pairwise_append.mpr ⟨symbols, groups, fun p hp q hq => ?_⟩, files, fun p hp q hq => ?_⟩)
  all_goals
    simp only [List.mem_append, List.mem_filterMap, Option.map_eq_some_iff] at hp hq
    obtain ⟨_, -, _, -, rfl⟩ := hq
  · obtain ⟨_, -, _, -, rfl⟩ := hp
    simp
  · obtain ⟨_, -, _, -, rfl⟩ | ⟨_, -, _, -, rfl⟩ := hp <;> simp

theorem owner_of_mem_documented {m : Model} {p : Target × Doc} (h : p ∈ m.documented) :
    ∀ i, p.1 ≠ .anchor i := by
  simp only [documented, List.mem_append, List.mem_filterMap, Option.map_eq_some_iff] at h
  rintro i same
  obtain (⟨_, -, _, -, rfl⟩ | ⟨_, -, _, -, rfl⟩) | ⟨_, -, _, -, rfl⟩ := h <;> cases same

theorem owner_of_mem_shown {α : Type} {m : Model} {view : Node → Option α} {b : Target × α}
    (h : b ∈ m.shown view) : ∀ i, b.1 ≠ .anchor i := by
  obtain ⟨doc, documented, -⟩ := mem_shown.1 h
  exact owner_of_mem_documented documented

/-- The file that a report points at depends neither on documentation nor on anchors. -/
theorem fileOf?_mapDocs (m : Model) (g : Target → Doc → Doc) (anchors : List Anchor)
    {owner : Target} (h : ∀ i, owner ≠ .anchor i) :
    ({ m.mapDocs g with anchors := anchors } : Model).fileOf? owner = m.fileOf? owner := by
  cases owner with
  | anchor i => exact absurd rfl (h i)
  | symbol i =>
    simp [fileOf?, holder, mapDocs, List.getElem?_map, Option.map_map, Function.comp_def]
  | group i =>
    simp [fileOf?, holder, mapDocs, List.getElem?_map, Option.map_map, Function.comp_def,
      Option.bind_map]
  | file i =>
    simp [fileOf?, holder, mapDocs, List.getElem?_map, Option.map_map, Function.comp_def]

/-- The report on a reference or a copy that is broken. -/
def brokenReport (m : Model) (b : Target × Text × RefFailure) : Diagnostic :=
  m.unresolvedReport b.1 b.2.1 b.2.2

theorem resolveReferences_snd (m : Model) (names : NameTable) :
    ((m.resolveReferences names).run []).2 =
      (m.shown (Node.brokenReference? ∘ linkNode names)).map m.brokenReport := by
  have node (owner : Target) (reports : List Diagnostic) (n : Node) :
      ((m.resolveNode names owner n).run reports).2 =
        reports ++
          (((linkNode names n).brokenReference?.map (owner, ·)).map m.brokenReport).toList := by
    cases n with
    | crossRef target shown status =>
      simp only [resolveNode, linkNode]
      cases names.find? target with
      | none => rfl
      | some found => exact (List.append_nil reports).symm
    | _ => exact (List.append_nil reports).symm
  have doc (reports : List Diagnostic) (p : Target × Doc) :
      ((Doc.edit (m.resolveNode names p.1) p.2).run reports).2 =
        reports ++ ((p.2.nodes.filterMap (Node.brokenReference? ∘ linkNode names)).map
          (p.1, ·)).map m.brokenReport := by
    rw [Doc.edit_meets]
    simp only [node]
    rw [List.foldl_append_eq_append, List.map_map, List.map_filterMap,
      List.filterMap_eq_flatMap_toList, List.flatMap_def]
    simp only [Option.map_map, Function.comp_def]
  rw [resolveReferences, traverseDocs_meets]
  simp only [doc]
  rw [List.foldl_append_eq_append, List.nil_append, shown, List.map_flatMap, List.flatMap_def]

end Model

/-! ## Anchors -/

namespace Model

theorem splitAnchors_snd (before anchors : List Anchor) (seen : List Text)
    (h : ∀ name, name ∈ seen ↔ name ∈ before.map Anchor.name) :
    (splitAnchors seen anchors).2 =
      (anchors.mapIdx fun i a =>
        if (before ++ anchors.take i).any (·.name == a.name) then some a
        else none).reduceOption := by
  induction anchors generalizing before seen with
  | nil => rfl
  | cons a rest ih =>
    have met : before.any (·.name == a.name) = seen.contains a.name := by
      rw [Bool.eq_iff_iff]
      simp [h]
    have shifted (i : Nat) :
        before ++ (a :: rest).take (i + 1) = (before ++ [a]) ++ rest.take i := by
      simp
    rw [List.mapIdx_cons, splitAnchors]
    simp only [shifted, List.take_zero, List.append_nil, met]
    split
    next known =>
      have later := ih (before ++ [a]) seen fun name => by
        rw [List.map_append, List.mem_append, ← h, iff_self_or]
        intro again
        rw [List.mem_singleton.mp again]
        exact List.contains_iff_mem.mp known
      rw [later, List.reduceOption_cons_of_some]
    next new =>
      have later := ih (before ++ [a]) (a.name :: seen) fun name => by
        rw [List.map_append, List.mem_append, ← h, List.mem_cons, or_comm]
        simp
      rw [later, List.reduceOption_cons_of_none]

theorem splitAnchors_repeated (anchors : List Anchor) :
    (splitAnchors [] anchors).2 = repeated Anchor.name anchors :=
  splitAnchors_snd [] anchors [] (by simp)

theorem splitAnchors_fst_names (anchors : List Anchor) (seen : List Text) :
    (splitAnchors seen anchors).1.map Anchor.name =
      ((anchors.map Anchor.name).filter fun name => !seen.contains name).eraseDups := by
  induction anchors generalizing seen with
  | nil => rfl
  | cons a rest ih =>
    rw [splitAnchors, List.map_cons]
    split
    next known =>
      rw [List.filter_cons_of_neg (by simpa using known)]
      exact ih seen
    next new =>
      rw [List.filter_cons_of_pos (by simpa using new), List.eraseDups_cons, List.map_cons, ih,
        List.filter_filter]
      congr 3
      funext name
      rw [List.contains_cons, Bool.not_or]

theorem splitAnchors_fst_first (anchors : List Anchor) (seen : List Text) :
    ∀ a ∈ (splitAnchors seen anchors).1,
      a.name ∉ seen ∧ anchors.find? (·.name == a.name) = some a := by
  induction anchors generalizing seen with
  | nil => simp [splitAnchors]
  | cons b rest ih =>
    rw [splitAnchors]
    split
    next known =>
      intro a ha
      obtain ⟨new, first⟩ := ih seen a ha
      have other : b.name ≠ a.name := fun same => new (same ▸ List.contains_iff_mem.mp known)
      exact ⟨new, by rw [List.find?_cons_of_neg (by simpa using other), first]⟩
    next new =>
      refine List.forall_mem_cons.mpr ⟨⟨by simpa using new, by simp⟩, fun a ha => ?_⟩
      obtain ⟨unseen, first⟩ := ih (b.name :: seen) a ha
      obtain ⟨other, unseen⟩ := not_or.mp (List.mem_cons.not.mp unseen)
      exact ⟨unseen, by rw [List.find?_cons_of_neg (by simpa using Ne.symm other), first]⟩

variable {m : Model}

theorem anchorNodes_rewrite {g : Node → Node} (hg : Node.Restates g) (m : Model) :
    (m.mapDocs fun _ => Doc.rewrite g).anchorNodes = m.anchorNodes := by
  have same : Node.anchorName? ∘ g = Node.anchorName? := by
    funext n
    have restated := hg n
    rw [Function.comp_apply]
    generalize g n = n' at restated
    cases restated <;> rfl
  rw [anchorNodes_eq, anchorNodes_eq, shown_rewrite hg Node.anchorName?_leaf, same]

theorem anchorNodes_clear (m : Model) : m.clear.anchorNodes = m.anchorNodes := by
  rw [clear_eq]
  exact anchorNodes_rewrite clearNode_restates m

theorem anchorNodes_resolve (numbered : m.Numbered) : m.resolve.1.anchorNodes = m.anchorNodes := by
  rw [resolve_eq numbered]
  exact anchorNodes_rewrite (m.indexed.settleNode_restates _) m.indexed

theorem anchors_eq (numbered : m.Numbered) :
    m.resolve.1.anchors = (splitAnchors [] m.anchorNodes).1 := by
  rw [resolve_eq numbered, ← anchorNodes_clear]
  rfl

/-! ## The reports of a pass -/

/-- Reports of all passes point at the same files. -/
theorem fileOf?_indexed (g : Target → Doc → Doc) {owner : Target} (h : ∀ i, owner ≠ .anchor i) :
    (m.indexed.mapDocs g).fileOf? owner = m.fileOf? owner :=
  fileOf?_mapDocs m g m.anchored.anchors h

theorem repeatedAnchor_eq {m' : Model} {a : Anchor} (h : m'.fileOf? a.owner = m.fileOf? a.owner) :
    m'.repeatedAnchor a = m.repeatedAnchor a :=
  congrArg (Diagnostic.mk _ · _) h

theorem owner_of_mem_anchorNodes {a : Anchor} (h : a ∈ m.anchorNodes) :
    ∀ i, a.owner ≠ .anchor i := by
  rw [anchorNodes_eq] at h
  obtain ⟨_, shown, rfl⟩ := List.mem_map.mp h
  exact owner_of_mem_shown shown

theorem brokenReport_eq {m' : Model} {b : Target × Text × RefFailure}
    (h : m'.fileOf? b.1 = m.fileOf? b.1) : m'.brokenReport b = m.brokenReport b :=
  congrArg (Diagnostic.mk _ · _) h

theorem shown_brokenReference_resolve (numbered : m.Numbered) :
    m.resolve.1.shown Node.brokenReference? = m.linked.shown Node.brokenReference? := by
  have same : Node.brokenReference? ∘ m.linked.settle m.linked.filled? =
      Node.brokenReference? := by
    funext n
    cases n with
    | copyDoc written status content =>
      simp only [Function.comp_apply, settle]
      split <;> rfl
    | _ => rfl
  rw [resolve_eq_linked numbered,
    shown_rewrite (settle_restates _ _) Node.brokenReference?_leaf, same]

theorem fileOf?_resolve (numbered : m.Numbered) {owner : Target} (h : ∀ i, owner ≠ .anchor i) :
    m.resolve.1.fileOf? owner = m.fileOf? owner := by
  rw [resolve_eq numbered, fileOf?_indexed _ h]

theorem repeatedAnchor_reports (numbered : m.Numbered) :
    (splitAnchors [] m.clear.anchorNodes).2.map m.clear.repeatedAnchor =
      (repeated Anchor.name m.resolve.1.anchorNodes).map m.resolve.1.repeatedAnchor := by
  rw [anchorNodes_clear, anchorNodes_resolve numbered, splitAnchors_repeated]
  refine List.map_congr_left fun a ha => repeatedAnchor_eq ?_
  have owner := owner_of_mem_anchorNodes (mem_of_mem_repeated ha)
  rw [fileOf?_resolve numbered owner, clear_eq, fileOf?_mapDocs _ _ _ owner]

theorem reference_reports (numbered : m.Numbered) :
    ((m.anchored.resolveReferences (NameTable.ofModel m.anchored)).run []).2 =
      (m.resolve.1.shown Node.brokenReference?).map m.resolve.1.brokenReport := by
  rw [resolveReferences_snd, shown_brokenReference_resolve numbered, linked,
    shown_rewrite (linkNode_restates _) Node.brokenReference?_leaf]
  refine List.map_congr_left fun b hb => brokenReport_eq ?_
  have owner := owner_of_mem_shown hb
  rw [fileOf?_resolve numbered owner, anchored_eq, fileOf?_indexed _ owner]

end Model

end DocComment
