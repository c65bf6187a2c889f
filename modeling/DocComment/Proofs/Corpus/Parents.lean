import DocComment.Proofs.Corpus.GroupWalk
import DocComment.Proofs.Corpus.Growth
import DocComment.Proofs.Corpus.Service

/-!
# Which parent a group gets

A group takes the first parent that it is offered, unless the parent is below it. What is offered
later is reported, and what is below the group is dropped without a report. The order that counts is
that in which the links are made; it is the order of the requests only among those whose groups are
defined where they are asked for.
-/

set_option autoImplicit false

namespace DocComment

open GroupForest Relation

namespace GroupForest

/-- Whether the way up from the first group leads to the second, or starts there. -/
abbrev Below (groups : List Group) : Nat → Nat → Prop := ReflTransGen (IsChild groups)

theorem below_of_isAbove (c : Collection) {steps start top : Nat}
    (above : c.isAbove top steps start = true) : Below c.groups start top := by
  induction steps generalizing start with
  | zero =>
    obtain rfl : start = top := by simpa [Collection.isAbove] using above
    exact .refl
  | succ steps ih =>
    rw [Collection.isAbove, Bool.or_eq_true, beq_iff_eq] at above
    obtain rfl | further := above
    · exact .refl
    · cases up : c.parent? start with
      | none => simp [up] at further
      | some next =>
        rw [up] at further
        exact .head up (ih further)

theorem not_below_of_isChild {groups : List Group} (forest : IsForest groups) {child parent : Nat}
    (h : IsChild groups child parent) : ¬ Below groups parent child :=
  fun below => acyclic forest child (.head' h below)

end GroupForest

namespace Collection

/-! ## What stays -/

section

variable {c c' : Collection} (h : Changes c c')

include h

theorem Changes.group_extends {i : Nat} {g : Group} (at_ : c.groups[i]? = some g) :
    ∃ g', c'.groups[i]? = some g' ∧ g.Extends g' := h.extends.groups i g at_

theorem Changes.isChild {child parent : Nat} (edge : IsChild c.groups child parent) :
    IsChild c'.groups child parent := by
  obtain ⟨g, at_, up⟩ := Option.bind_eq_some_iff.mp edge
  obtain ⟨g', at', kept⟩ := h.group_extends at_
  rw [IsChild, parentIn, at']
  exact kept.parent parent up

theorem Changes.below {a b : Nat} (way : Below c.groups a b) : Below c'.groups a b :=
  ReflTransGen.mono (fun _ _ edge => h.isChild edge) _ _ way

theorem Changes.groupName {i : Nat} (known : i < c.groups.length) :
    c'.groupName i = c.groupName i := by
  obtain ⟨g', at', kept⟩ := h.group_extends (List.getElem?_eq_getElem known)
  simp [Collection.groupName, at', kept.name, known]

theorem Changes.groupIndex? {name : Text} {i : Nat} (found : c.groupIndex? name = some i) :
    c'.groupIndex? name = some i := by
  obtain ⟨known, here, before⟩ := List.findIdx?_eq_some_iff_getElem.mp found
  have same (j : Nat) (hj : j < c.groups.length) :
      ∃ hj' : j < c'.groups.length, c'.groups[j].name = c.groups[j].name := by
    obtain ⟨g', at', kept⟩ := h.group_extends (List.getElem?_eq_getElem hj)
    obtain ⟨hj', rfl⟩ := List.getElem?_eq_some_iff.mp at'
    exact ⟨hj', kept.name⟩
  obtain ⟨known', here'⟩ := same i known
  refine List.findIdx?_eq_some_iff_getElem.mpr ⟨known', by rwa [here'], fun j lt => ?_⟩
  obtain ⟨_, kept⟩ := same j (lt.trans known)
  rw [kept]
  exact before j lt

end

theorem Change.diagnostics {c c' : Collection} (h : Change c c') :
    c.diagnostics ⊆ c'.diagnostics := by
  cases h with
  | report found => exact List.subset_append_left _ _
  | connect group link path line known within =>
    cases link with
    | parentOf child =>
      rw [Collection.connect]
      obtain same | ⟨found, same⟩ | ⟨-, -, same⟩ := joinGroup_cases c child group path line
      · rw [same]
        exact List.Subset.refl _
      · rw [same]
        exact List.subset_append_left _ _
      · rw [same]
        exact List.Subset.refl _
    | member symbol => exact List.Subset.refl _
    | file file => exact List.Subset.refl _
  | _ => exact List.Subset.refl _

/-! ## Answers -/

/-- What has become of a request to put `child` under `parent`: it was granted, or it would have
closed a circle, or the report names the parent that `child` has already. -/
inductive Answered (c : Collection) (child parent : Nat) (path : Text) (line : Nat) : Prop
  | granted (edge : IsChild c.groups child parent)
  | circular (below : Below c.groups parent child)
  | refused {kept : Nat} (edge : IsChild c.groups child kept)
      (reported : (⟨.secondParent (c.groupName child) (c.groupName kept) (c.groupName parent),
        some path, some line⟩ : Diagnostic) ∈ c.diagnostics)

/-- What a link does to the parents of the groups. -/
theorem joinGroup_answer (c : Collection) (child parent : Nat) (path : Text) (line : Nat) :
    Below c.groups parent child ∧ c.joinGroup child parent path line = c ∨
      IsChild c.groups child parent ∧ c.joinGroup child parent path line = c ∨
      (∃ kept, IsChild c.groups child kept ∧ c.joinGroup child parent path line =
        c.report (.secondParent (c.groupName child) (c.groupName kept) (c.groupName parent)) path
          (some line)) ∨
      parentIn c.groups child = none ∧
        c.joinGroup child parent path line = c.adopt child parent := by
  unfold joinGroup
  split
  next above => exact .inl ⟨below_of_isAbove c above, rfl⟩
  next =>
    split
    next free => exact .inr (.inr (.inr ⟨free, rfl⟩))
    next kept edge =>
      split
      next same => exact .inr (.inl ⟨same ▸ edge, rfl⟩)
      next => exact .inr (.inr (.inl ⟨kept, edge, rfl⟩))

theorem joinGroup_answered (c : Collection) {child parent : Nat} (known : child < c.groups.length)
    (path : Text) (line : Nat) :
    (c.joinGroup child parent path line).Answered child parent path line := by
  obtain ⟨below, same⟩ | ⟨edge, same⟩ | ⟨kept, edge, same⟩ | ⟨-, same⟩ :=
    joinGroup_answer c child parent path line
  · rw [same]
    exact .circular below
  · rw [same]
    exact .granted edge
  · rw [same]
    exact .refused edge (List.mem_append_right _ List.mem_cons_self)
  · rw [same]
    exact .granted (by rw [IsChild, parentIn_adopt known, if_pos rfl])

theorem Answered.change {c c' : Collection} (h : Change c c') (forest : IsForest c.groups)
    {child parent : Nat} (known : parent < c.groups.length) {path : Text} {line : Nat}
    (answered : c.Answered child parent path line) : c'.Answered child parent path line := by
  have changes : Changes c c' := .single h
  cases answered with
  | granted edge => exact .granted (changes.isChild edge)
  | circular below => exact .circular (changes.below below)
  | refused edge reported =>
    refine .refused (changes.isChild edge) (h.diagnostics ?_)
    rwa [changes.groupName (parentIn_lt edge), changes.groupName (parent_lt forest edge),
      changes.groupName known]

/-- Every link to a parent that was made has its answer, and a group has the first parent that it
was offered and that is not below it. -/
structure Answers (c : Collection) (served : List WaitingLink) : Prop where
  forest : IsForest c.groups
  answered : ∀ w ∈ served, ∀ child, w.link = .parentOf child →
    ∃ parent, c.groupIndex? w.group = some parent ∧ c.Answered child parent w.path w.line
  first : ∀ child parent, IsChild c.groups child parent → ∃ before w after,
    served = before ++ w :: after ∧ w.link = .parentOf child ∧
      c.groupIndex? w.group = some parent ∧ ∀ v ∈ before, v.link = .parentOf child →
        ∃ other, c.groupIndex? v.group = some other ∧ Below c.groups other child

namespace Answers

variable {c c' : Collection} {served : List WaitingLink}

/-- A change of which nothing is known but who has got a parent by it. -/
theorem change (h : c.Answers served) (step : Change c c') {more : List WaitingLink}
    (new : ∀ w ∈ more, ∀ child, w.link = .parentOf child → ∃ parent,
      c'.groupIndex? w.group = some parent ∧ c'.Answered child parent w.path w.line)
    (adopted : ∀ child parent, IsChild c'.groups child parent → IsChild c.groups child parent ∨
      parentIn c.groups child = none ∧ ∃ w after, more = w :: after ∧
        w.link = .parentOf child ∧ c'.groupIndex? w.group = some parent) :
    c'.Answers (served ++ more) where
  forest := change_isForest step h.forest
  answered w mem child asks := by
    obtain old | fresh := List.mem_append.mp mem
    · obtain ⟨parent, found, answered⟩ := h.answered w old child asks
      exact ⟨parent, Changes.groupIndex? (.single step) found,
        answered.change step h.forest (groupIndex?_lt found)⟩
    · exact new w fresh child asks
  first child parent edge := by
    have kept : Changes c c' := .single step
    obtain old | ⟨free, w, after, rfl, asks, found⟩ := adopted child parent edge
    · obtain ⟨before, w, after, rfl, asks, found, earlier⟩ := h.first child parent old
      refine ⟨before, w, after ++ more, by simp, asks, kept.groupIndex? found, ?_⟩
      intro v mem asks
      obtain ⟨other, found, below⟩ := earlier v mem asks
      exact ⟨other, kept.groupIndex? found, kept.below below⟩
    · refine ⟨served, w, after, rfl, asks, found, fun v mem asks => ?_⟩
      -- A group without a parent has turned down whatever it was offered as a circle.
      obtain ⟨other, found, answered⟩ := h.answered v mem child asks
      cases answered with
      | granted edge => exact absurd (free.symm.trans edge) (by simp)
      | circular below => exact ⟨other, kept.groupIndex? found, kept.below below⟩
      | refused edge => exact absurd (free.symm.trans edge) (by simp)

theorem quiet (h : c.Answers served) (step : Change c c')
    (parents : parentIn c'.groups = parentIn c.groups) : c'.Answers served := by
  have kept : c'.Answers (served ++ []) := h.change step (by simp) fun child parent edge =>
    .inl (by rwa [IsChild, parents] at edge)
  simpa using kept

theorem link (h : c.Answers served) (w : WaitingLink) {group : Nat}
    (found : c.groupIndex? w.group = some group) (within : w.link.Within c) :
    (c.connect group w.link w.path w.line).Answers (served ++ [w]) := by
  have step : Change c (c.connect group w.link w.path w.line) :=
    .connect c group w.link w.path w.line (groupIndex?_lt found) within
  have found' := Changes.groupIndex? (.single step) found
  refine h.change step ?_ ?_
  · intro v mem child asks
    obtain rfl := List.mem_singleton.mp mem
    refine ⟨group, found', ?_⟩
    rw [asks] at within ⊢
    exact joinGroup_answered c within v.path v.line
  · intro child parent edge
    cases asks : w.link with
    | parentOf asking =>
      rw [asks, Collection.connect] at edge
      rw [asks] at within found'
      obtain ⟨-, same⟩ | ⟨-, same⟩ | ⟨kept, -, same⟩ | ⟨free, same⟩ :=
        joinGroup_answer c asking group w.path w.line
      · exact .inl (by rwa [same] at edge)
      · exact .inl (by rwa [same] at edge)
      · exact .inl (by rwa [same] at edge)
      · rw [same, IsChild, parentIn_adopt within] at edge
        split at edge
        next itself =>
          obtain rfl : group = parent := Option.some.inj edge
          subst itself
          exact .inr ⟨free, w, [], rfl, asks, found'⟩
        next => exact .inl edge
    | member symbol =>
      rw [asks] at edge
      have same := parentIn_of_sameLinks
        (forall₂_modify (fun _ => .rfl) (insert_symbol_sameLinks symbol) group c.groups)
      exact .inl (by rwa [IsChild, ← same])
    | file file =>
      rw [asks] at edge
      have same := parentIn_of_sameLinks (forall₂_modify (fun _ => .rfl) (f := fun g : Group =>
        if g.files.contains file then g else { g with files := g.files ++ [file] }) (fun g => by
          split <;> exact ⟨rfl, fun _ => rfl⟩) group c.groups)
      exact .inl (by rwa [IsChild, ← same])

theorem run {before : List WaitingLink} (h : c.Answers before) (links : Links served c c') :
    c'.Answers (before ++ served) := by
  induction links with
  | refl => simpa using h
  | quiet _ step parents ih => exact (ih h).quiet step parents
  | link _ w found within ih => simpa using (ih h).link w found within

end Answers

theorem ofContributions_answers (contributions : List Contribution) :
    (ofContributions contributions).Answers (servedLinks contributions) := by
  have start : Answers {} [] :=
    ⟨isForest_nil, by simp, fun child parent edge => by simp [IsChild, parentIn] at edge⟩
  exact start.run (ofContributions_links contributions)

end Collection

end DocComment
