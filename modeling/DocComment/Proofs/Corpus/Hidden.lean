import DocComment.Proofs.Reference.Reports
import DocComment.Proofs.Reference.Resolved
import DocComment.Proofs.Section.BriefRule

/-!
# Undocumented symbols out of sight

Whether groups leave out the symbols without documentation is decided when everything is collected,
before references are resolved. Reading comments does not ask for it, and no later pass looks at
the members of a group or makes a symbol documented or undocumented. So the model with the option is
the model without it, with fewer members.
-/

set_option autoImplicit false

namespace DocComment

/-- The same options, except for whether groups leave out symbols without documentation. -/
def Options.hiding (options : Options) (hide : Bool) : Options :=
  { options with hideUndocumented := hide }

namespace Model

/-- The same model with only some of the members of its groups, in the same order. -/
def keepMembers (keep : Member → Bool) (m : Model) : Model :=
  { m with groups := m.groups.map fun g => { g with members := g.members.filter keep } }

/-- Whether a member of a group stays where undocumented symbols are hidden: every group does, and
a symbol does if it has documentation. -/
def hasDoc (m : Model) : Member → Bool
  | .symbol i => (m.symbols[i]?.bind Symbol.doc).isSome
  | .group _ => true

/-- The same model without the members that are symbols without documentation. -/
def onlyDocumented (m : Model) : Model := m.keepMembers m.hasDoc

end Model

/-! ## Reading -/

section

variable (options : Options) (hide : Bool)

theorem Documentation.ofComment_hiding (comment : Comment) :
    ofComment (options.hiding hide) comment = ofComment options comment := by
  have blocks : Blocks.parse (options.hiding hide) = Blocks.parse options :=
    Blocks.parse_congr rfl
  unfold ofComment ofLines
  rw [blocks]
  rfl

theorem FileDraft.addFragment_hiding (draft : FileDraft) (fragment : SourceFragment) :
    draft.addFragment (options.hiding hide) fragment = draft.addFragment options fragment := by
  unfold addFragment addBefore addAfter
  simp only [Documentation.ofComment_hiding]
  rfl

theorem FileDraft.addAll_hiding (draft : FileDraft) (fragments : List SourceFragment) :
    draft.addAll (options.hiding hide) fragments = draft.addAll options fragments := by
  induction fragments generalizing draft with
  | nil => rfl
  | cons fragment rest ih =>
    rw [addAll, addAll, addFragment_hiding]
    simp only [ih]

theorem Contribution.ofSource?_hiding (index : Nat) (source : SourceFile) :
    ofSource? (options.hiding hide) index source = ofSource? options index source := by
  unfold ofSource?
  rw [FileDraft.addAll_hiding]

/-- What files contribute does not depend on what groups leave out. -/
theorem Contribution.ofSources?_hiding (index : Nat) (files : List SourceFile) :
    ofSources? (options.hiding hide) index files = ofSources? options index files := by
  induction files generalizing index with
  | nil => rfl
  | cons source rest ih => rw [ofSources?, ofSources?, ofSource?_hiding, ih]

end

/-! ## Collecting -/

theorem Collection.roots_map {f : Group → Group} (parent : ∀ g, (f g).parent = g.parent)
    (title : ∀ g, (f g).shownTitle = g.shownTitle) (id : ∀ g, (f g).id = g.id)
    (groups : List Group) : roots (groups.map f) = roots groups := by
  unfold roots
  dsimp only
  have free : (groups.map f).filter (fun g => g.parent.isNone) =
      (groups.filter fun g => g.parent.isNone).map f := by
    rw [List.filter_map]
    simp only [Function.comp_def, parent]
  rw [free, ← List.map_mergeSort fun a _ b _ => by rw [title, title], List.map_map]
  exact List.map_congr_left fun g _ => id g

theorem Collection.toModel_hiding (options : Options) (c : Collection) :
    c.toModel (options.hiding true) = (c.toModel (options.hiding false)).onlyDocumented := by
  let shown := c.groups.map fun g => c.withIncludes (includeEdges c.files) g
  have groups : (c.toModel (options.hiding true)).groups =
      shown.map (hideUndocumented c.withOwners) := by
    rw [List.map_map]
    rfl
  have sorted : (c.toModel (options.hiding true)).roots = roots shown := by
    change roots (c.toModel (options.hiding true)).groups = _
    rw [groups]
    exact roots_map (f := hideUndocumented c.withOwners) (fun _ => rfl) (fun _ => rfl)
      (fun _ => rfl) shown
  exact congrArg₂ (fun groups roots => { c.toModel (options.hiding true) with groups, roots })
    groups sorted

/-! ## Resolving -/

theorem mapM_map_right {μ : Type → Type} [Monad μ] [LawfulMonad μ] {α β γ : Type} (f : β → γ)
    (g : α → μ β) (l : List α) : (l.mapM fun a => f <$> g a) = List.map f <$> l.mapM g := by
  induction l with
  | nil => simp
  | cons a rest ih => simp [ih]

theorem Model.keepMembers_unread (keep : Member → Bool) : Unread (keepMembers keep) where
  traverseDocs change m := by
    let kept (g : Group) : Group := { g with members := g.members.filter keep }
    let changed (g : Group) : StateM _ Group :=
      return { g with doc := ← g.doc.mapM (change (.group g.id)) }
    have groups : (m.groups.map kept).mapM changed = List.map kept <$> m.groups.mapM changed := by
      rw [List.mapM_map, ← mapM_map_right]
      rfl
    unfold Model.traverseDocs
    simp only [map_bind, map_pure]
    refine bind_congr fun symbols => ?_
    change (m.groups.map kept).mapM changed >>= _ = _
    rw [groups, bind_map_left]
    rfl
  mapDocs g m := by
    simp [keepMembers, Model.mapDocs, Function.comp_def]
  withAnchors _ _ := rfl
  documented m := by
    simp [keepMembers, Model.documented, List.filterMap_map]
  ownDoc? m := by
    funext owner
    cases owner <;> simp [keepMembers, Model.ownDoc?, Option.bind_map]
  holder _ := rfl
  fileOf? m := by
    funext owner
    have same : (m.keepMembers keep).holder owner = m.holder owner := rfl
    unfold Model.fileOf?
    rw [same]
    cases m.holder owner <;> simp [keepMembers, Option.bind_map]
  names m := by
    have members : NameTable.memberNames (m.keepMembers keep) = NameTable.memberNames m := rfl
    simp only [NameTable.ofModel, NameTable.namesOf, members]
    simp [keepMembers, List.filter_map, Function.comp_def, Group.shownTitle]

/-- Resolution neither gives documentation to a symbol nor takes it away. -/
theorem Model.resolve_onlyDocumented {m : Model} (numbered : m.Numbered) :
    m.onlyDocumented.resolve = (m.resolve.1.onlyDocumented, m.resolve.2) := by
  have same : m.resolve.1.hasDoc = m.hasDoc := by
    funext x
    cases x with
    | group i => rfl
    | symbol i =>
      have own := congrArg Option.isSome (ownDoc?_resolve_eq numbered (.symbol i))
      rwa [Option.isSome_map] at own
  rw [onlyDocumented, onlyDocumented, same]
  exact resolve_unread (keepMembers_unread _) m

/-- Where undocumented symbols are hidden, the members of a group are those that have documentation
or are groups themselves, in the same order. Nothing else changes in the model of a corpus. -/
theorem hiding_only_hides (options : Options) (files : List SourceFile) :
    Model.ofSources? (options.hiding true) files =
      (Model.ofSources? (options.hiding false) files).map fun m => m.keepMembers m.hasDoc := by
  unfold Model.ofSources?
  rw [Contribution.ofSources?_hiding, Contribution.ofSources?_hiding, Option.map_map]
  apply Option.map_congr
  intro contributions _
  have numbered := Model.ofContributions_numbered (options.hiding false) contributions
  have resolution := Model.resolve_onlyDocumented numbered
  have collected : Model.ofContributions (options.hiding true) contributions =
      (Model.ofContributions (options.hiding false) contributions).onlyDocumented :=
    Collection.toModel_hiding options _
  unfold Model.resolved
  rw [collected, resolution]
  rfl

end DocComment
