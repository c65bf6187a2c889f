import DocComment.Proofs.Corpus.GroupForest

/-!
# Walking down the groups

The walk takes a group, then the groups among its members, then whatever came after it. As a
relation between what is left to visit and the groups met from there on it holds only of walks
that end. In a forest the walk from the roots ends and meets every group once.
-/

set_option autoImplicit false

namespace DocComment

open Relation Collection

namespace GroupForest

def subgroups (groups : List Group) (g : Nat) : List Nat :=
  (membersIn groups g).filterMap fun
    | .group child => some child
    | .symbol _ => none

/-- A walk that is to visit the groups of the first list meets those of the second, in order. -/
inductive Visits (groups : List Group) : List Nat → List Nat → Prop where
  | done : Visits groups [] []
  | next {g : Nat} {rest seen : List Nat} :
      Visits groups (subgroups groups g ++ rest) seen → Visits groups (g :: rest) (g :: seen)

variable {groups : List Group}

theorem count_subgroups (g child : Nat) :
    (subgroups groups g).count child = (membersIn groups g).count (.group child) := by
  unfold subgroups
  induction membersIn groups g with
  | nil => rfl
  | cons m rest ih =>
    cases m with
    | symbol i => simpa using ih
    | group i => simp [List.count_cons, ih]

theorem count_subgroups_child (forest : IsForest groups) (g child : Nat) :
    (subgroups groups g).count child = if parentIn groups child = some g then 1 else 0 := by
  rw [count_subgroups, forest.listed]

theorem mem_subgroups (forest : IsForest groups) {g child : Nat} :
    child ∈ subgroups groups g ↔ IsChild groups child g := by
  rw [← List.count_pos_iff, count_subgroups_child forest, IsChild]
  split <;> simp_all

/-! ## The walk ends -/

theorem visits_append {todo seen : List Nat} (h : Visits groups todo seen) {todo' seen' : List Nat}
    (h' : Visits groups todo' seen') : Visits groups (todo ++ todo') (seen ++ seen') := by
  induction h with
  | done => exact h'
  | next _ ih => exact .next (by simpa using ih)

theorem exists_visits_of_each {todo : List Nat}
    (each : ∀ g ∈ todo, ∃ seen, Visits groups [g] seen) : ∃ seen, Visits groups todo seen := by
  induction todo with
  | nil => exact ⟨[], .done⟩
  | cons g rest ih =>
    obtain ⟨first, hf⟩ := each g (by simp)
    obtain ⟨others, ho⟩ := ih fun x hx => each x (by simp [hx])
    exact ⟨first ++ others, visits_append hf ho⟩

open Classical in
/-- The groups that are below a group or equal to it. -/
noncomputable def below (groups : List Group) (g : Nat) : Finset Nat :=
  (insert g (Finset.range groups.length)).filter fun x => ReflTransGen (IsChild groups) x g

theorem mem_below {x g : Nat} : x ∈ below groups g ↔ ReflTransGen (IsChild groups) x g := by
  classical
  simp only [below, Finset.mem_filter, Finset.mem_insert, Finset.mem_range, and_iff_right_iff_imp]
  intro way
  rcases ReflTransGen.cases_head way with rfl | ⟨p, step, -⟩
  · exact .inl rfl
  · exact .inr (parentIn_lt step)

theorem below_ssubset (forest : IsForest groups) {child g : Nat} (h : IsChild groups child g) :
    below groups child ⊂ below groups g := by
  refine Finset.ssubset_iff_subset_ne.mpr ⟨fun x hx => ?_, fun same => ?_⟩
  · exact mem_below.mpr ((mem_below.mp hx).tail h)
  · have way : g ∈ below groups child := by
      rw [same]
      exact mem_below.mpr .refl
    exact acyclic forest g (TransGen.tail' (mem_below.mp way) h)

/-- Each step down leaves fewer groups below. -/
theorem exists_visits_single (forest : IsForest groups) (g : Nat) :
    ∃ seen, Visits groups [g] seen := by
  induction hn : (below groups g).card using Nat.strong_induction_on generalizing g with
  | _ n ih =>
    have inside : ∃ seen, Visits groups (subgroups groups g) seen :=
      exists_visits_of_each fun child hc =>
        ih _ (hn ▸ Finset.card_lt_card (below_ssubset forest ((mem_subgroups forest).mp hc)))
          child rfl
    obtain ⟨seen, h⟩ := inside
    exact ⟨g :: seen, .next (by simpa using h)⟩

theorem exists_visits (forest : IsForest groups) (todo : List Nat) :
    ∃ seen, Visits groups todo seen :=
  exists_visits_of_each fun g _ => exists_visits_single forest g

/-! ## How often a group is met -/

theorem countP_eq_one_of_unique {p : Nat → Prop} [DecidablePred p] {l : List Nat} {a : Nat}
    (once : l.count a = 1) (unique : ∀ b ∈ l, p b ↔ b = a) : l.countP (fun b => p b) = 1 := by
  rw [← once, List.count]
  apply List.countP_congr
  intro b hb
  simpa using unique b hb

open Classical in
/-- A group is on the way up to `g` through exactly one child of `g`, unless it is `g`. -/
theorem countP_children (forest : IsForest groups) (x g : Nat) :
    (subgroups groups g).countP (fun child => ReflTransGen (IsChild groups) x child) +
        (if x = g then 1 else 0) =
      if ReflTransGen (IsChild groups) x g then 1 else 0 := by
  by_cases hx : x = g
  · subst hx
    have none_below : (subgroups groups x).countP
        (fun child => ReflTransGen (IsChild groups) x child) = 0 := by
      apply List.countP_eq_zero.mpr
      intro child hc way
      exact acyclic forest x (TransGen.tail' (by simpa using way) ((mem_subgroups forest).mp hc))
    simp [none_below, ReflTransGen.refl]
  · simp only [hx, if_false, add_zero]
    split
    next way =>
      obtain eq | ⟨child, up, last⟩ := ReflTransGen.cases_tail way
      · exact absurd eq.symm hx
      refine countP_eq_one_of_unique (a := child) ?_ fun other ho => ⟨fun up' => ?_, ?_⟩
      · rw [count_subgroups_child forest]
        exact if_pos last
      · -- Of two children above the group one is above the other, and so is their parent.
        have step' := (mem_subgroups forest).mp ho
        have apart : ∀ {a b : Nat}, IsChild groups a g → IsChild groups b g →
            ReflTransGen (IsChild groups) a b → a = b := by
          intro a b ha hb hab
          rcases ReflTransGen.cases_head hab with rfl | ⟨p, step, rest⟩
          · rfl
          · rw [isChild_unique step ha] at rest
            exact absurd (TransGen.tail' rest hb) (acyclic forest g)
        rcases ReflTransGen.total_of_right_unique (r := IsChild groups)
          (fun _ _ _ => isChild_unique) up up' with h | h
        · exact (apart last step' h).symm
        · exact apart step' last h
      · rintro rfl
        exact up
    next away =>
      refine List.countP_eq_zero.mpr fun child hc way => away ?_
      exact ReflTransGen.tail (by simpa using way) ((mem_subgroups forest).mp hc)

open Classical in
/-- A group is met once for each group to be visited that is above it. -/
theorem count_of_visits (forest : IsForest groups) {todo seen : List Nat}
    (h : Visits groups todo seen) (x : Nat) :
    seen.count x = todo.countP fun g => ReflTransGen (IsChild groups) x g := by
  induction h with
  | done => rfl
  | @next g rest seen _ ih =>
    have here := countP_children forest x g
    rw [List.count_cons, ih, List.countP_append, List.countP_cons]
    simp only [beq_iff_eq, decide_eq_true_eq, eq_comm (a := g)] at here ⊢
    omega

/-! ## The finished model -/

theorem mem_roots (numbered : CountedBy Group.id groups) (g : Nat) :
    g ∈ Collection.roots groups ↔ g < groups.length ∧ parentIn groups g = none := by
  unfold Collection.roots
  simp only [List.mem_map, List.mem_mergeSort, List.mem_filter, Option.isNone_iff_eq_none]
  constructor
  · rintro ⟨group, ⟨member, free⟩, rfl⟩
    obtain ⟨i, hi, rfl⟩ := List.getElem_of_mem member
    rw [numbered.number_getElem hi]
    exact ⟨hi, by simpa [parentIn, hi] using free⟩
  · rintro ⟨known, free⟩
    exact ⟨groups[g], ⟨List.getElem_mem known, by simpa [parentIn, known] using free⟩,
      numbered.number_getElem known⟩

theorem roots_nodup (numbered : CountedBy Group.id groups) :
    (Collection.roots groups).Nodup := by
  have ids : (groups.map Group.id).Nodup := by
    rw [numbered]
    exact List.nodup_range
  unfold Collection.roots
  refine (((List.mergeSort_perm _ _).map Group.id).nodup_iff).mpr ?_
  exact ids.sublist (List.filter_sublist.map Group.id)

theorem parent_lt (forest : IsForest groups) {child g : Nat} (h : IsChild groups child g) :
    g < groups.length := by
  by_contra out
  have listed := (mem_subgroups forest).mpr h
  simp [subgroups, membersIn, List.getElem?_eq_none (not_lt.mp out)] at listed

theorem eq_of_reaches_of_top {a b : Nat} (h : ReflTransGen (IsChild groups) a b)
    (top : parentIn groups a = none) : a = b := by
  rcases ReflTransGen.cases_head h with rfl | ⟨p, step, -⟩
  · rfl
  · exact absurd (top.symm.trans step) (by simp)

open Classical in
/-- Every group is below exactly one root. -/
theorem countP_roots (forest : IsForest groups) (numbered : CountedBy Group.id groups) {x : Nat}
    (known : x < groups.length) :
    (Collection.roots groups).countP (fun g => ReflTransGen (IsChild groups) x g) = 1 := by
  obtain ⟨root, way, top⟩ := forest.rooted x
  have root_lt : root < groups.length := by
    rcases ReflTransGen.cases_tail way with rfl | ⟨y, -, last⟩
    · exact known
    · exact parent_lt forest last
  refine countP_eq_one_of_unique (a := root) ?_ fun other ho => ⟨fun way' => ?_, ?_⟩
  · have listed := (mem_roots numbered root).mpr ⟨root_lt, top⟩
    exact List.count_eq_one_of_mem (roots_nodup numbered) listed
  · have top' := ((mem_roots numbered other).mp ho).2
    rcases ReflTransGen.total_of_right_unique (r := IsChild groups)
      (fun _ _ _ => isChild_unique) way way' with h | h
    · exact (eq_of_reaches_of_top h top).symm
    · exact eq_of_reaches_of_top h top'
  · rintro rfl
    exact way

theorem visits_perm (forest : IsForest groups) (numbered : CountedBy Group.id groups)
    {seen : List Nat} (h : Visits groups (Collection.roots groups) seen) :
    seen.Perm (List.range groups.length) := by
  classical
  rw [List.perm_iff_count]
  intro x
  rw [count_of_visits forest h]
  by_cases known : x < groups.length
  · rw [countP_roots forest numbered known]
    exact (List.count_eq_one_of_mem List.nodup_range (List.mem_range.mpr known)).symm
  · rw [List.count_eq_zero.mpr (by simpa using known)]
    refine List.countP_eq_zero.mpr fun g hg way => known ?_
    have top : parentIn groups x = none := by
      simp [parentIn, List.getElem?_eq_none (not_lt.mp known)]
    rw [eq_of_reaches_of_top (by simpa using way) top]
    exact ((mem_roots numbered g).mp hg).1

theorem hideUndocumented_sameLinks (symbols : List Symbol) (g : Group) :
    SameLinks g (Collection.hideUndocumented symbols g) := by
  refine ⟨rfl, fun child => ?_⟩
  exact List.count_filter rfl

theorem toModel_groups_isForest (options : Options) (c : Collection) (forest : IsForest c.groups) :
    IsForest (c.toModel options).groups := by
  refine isForest_of_sameLinks ?_ forest
  unfold Collection.toModel
  rw [List.forall₂_map_right_iff, List.forall₂_same]
  intro g _
  split
  · have hidden := hideUndocumented_sameLinks c.withOwners g
    exact ⟨hidden.parent, hidden.children⟩
  · exact ⟨rfl, fun _ => rfl⟩

end GroupForest

open GroupForest

/-- After any number of events of any file, and in the finished model, the groups form a forest;
the roots are the groups without a parent, and a walk down from them meets every group once. -/
theorem groups_form_forest (options : Options) (contributions : List Contribution)
    (next : Contribution) (events : Nat) :
    IsForest (Collection.ofContributions contributions).groups ∧
      IsForest (Collection.during contributions next events).groups ∧
      IsForest (Model.ofContributions options contributions).groups ∧
      (Model.ofContributions options contributions).roots.Nodup ∧
      (∀ g, g ∈ (Model.ofContributions options contributions).roots ↔
        g < (Model.ofContributions options contributions).groups.length ∧
          parentIn (Model.ofContributions options contributions).groups g = none) ∧
      ∃ seen, Visits (Model.ofContributions options contributions).groups
          (Model.ofContributions options contributions).roots seen ∧
        seen.Perm (List.range (Model.ofContributions options contributions).groups.length) := by
  have collected := changes_isForest (Collection.ofContributions_changes contributions) isForest_nil
  have taken := changes_isForest (Collection.during_changes contributions next events) isForest_nil
  have finished := toModel_groups_isForest options _ collected
  have numbered := (Model.ofContributions_numbered options contributions).groups
  obtain ⟨seen, walk⟩ := exists_visits finished
    (Model.ofContributions options contributions).roots
  exact ⟨collected, taken, finished, roots_nodup numbered, mem_roots numbered, seen, walk,
    visits_perm finished numbered walk⟩

end DocComment
