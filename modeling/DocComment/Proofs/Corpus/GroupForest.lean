import DocComment.Proofs.Corpus.Numbering

/-!
# Groups form a forest

Following parents from a group ends at a root, and the list of members of a parent holds each of
its children once. Every elementary change of a collection keeps this; a new edge does because a
group is never put below itself, and looking for that takes no more steps upwards than there are
groups.
-/

set_option autoImplicit false

namespace DocComment

open Relation

namespace GroupForest

section

variable (groups : List Group)

def parentIn (g : Nat) : Option Nat := groups[g]?.bind Group.parent

def membersIn (g : Nat) : List Member := (groups[g]?.map Group.members).getD []

def IsChild (child parent : Nat) : Prop := parentIn groups child = some parent

end

end GroupForest

open GroupForest

structure IsForest (groups : List Group) : Prop where
  /-- The way up from a group ends. -/
  rooted : ∀ g, ∃ root, ReflTransGen (IsChild groups) g root ∧ parentIn groups root = none
  /-- A child is listed once by its parent and by no other group. -/
  listed : ∀ child g, (membersIn groups g).count (.group child) =
    if parentIn groups child = some g then 1 else 0

namespace GroupForest

variable {groups : List Group}

/-! ## Ways up -/

theorem parentIn_lt {g p : Nat} (h : parentIn groups g = some p) : g < groups.length := by
  by_contra out
  simp [parentIn, List.getElem?_eq_none (not_lt.mp out)] at h

theorem isChild_unique {a b c : Nat} (hb : IsChild groups a b) (hc : IsChild groups a c) :
    b = c :=
  Option.some.inj (hb.symm.trans hc)

/-- No group is above itself. -/
theorem acyclic (forest : IsForest groups) (g : Nat) : ¬ TransGen (IsChild groups) g g := by
  intro cycle
  obtain ⟨root, up, top⟩ := forest.rooted g
  -- A cycle through a group goes through its parent as well, and so on up to the root.
  have atRoot : TransGen (IsChild groups) root root := by
    clear top
    induction up with
    | refl => exact cycle
    | tail _ step ih =>
      obtain ⟨next, first, back⟩ := TransGen.head'_iff.mp ih
      rw [isChild_unique step first]
      exact TransGen.tail' back first
  obtain ⟨next, first, -⟩ := TransGen.head'_iff.mp atRoot
  exact absurd (top.symm.trans first) (by simp)

/-- The group some steps above another. -/
def climb (groups : List Group) : Nat → Nat → Option Nat
  | 0, g => some g
  | k + 1, g => (parentIn groups g).bind (climb groups k)

theorem climb_add (j k g : Nat) :
    climb groups (j + k) g = (climb groups j g).bind (climb groups k) := by
  induction j generalizing g with
  | zero => simp [climb]
  | succ j ih =>
    rw [Nat.add_right_comm]
    cases h : parentIn groups g with
    | none => simp [climb, h]
    | some p => simpa [climb, h] using ih p

theorem exists_climb {g top : Nat} (h : ReflTransGen (IsChild groups) g top) :
    ∃ k, climb groups k g = some top := by
  induction h using ReflTransGen.head_induction_on with
  | refl => exact ⟨0, rfl⟩
  | head step _ ih =>
    obtain ⟨k, hk⟩ := ih
    exact ⟨k + 1, by rw [climb, show parentIn groups _ = some _ from step]; exact hk⟩

/-- A way up that is longer than there are groups meets a group twice and can be shortened. -/
theorem exists_climb_lt {k g top : Nat} (h : climb groups k g = some top)
    (long : groups.length < k) : ∃ j < k, climb groups j g = some top := by
  have inside : ∀ i < k, ∃ x < groups.length, climb groups i g = some x := by
    intro i hi
    rw [show k = i + (k - i - 1 + 1) by omega, climb_add] at h
    obtain ⟨x, hx, rest⟩ := Option.bind_eq_some_iff.mp h
    obtain ⟨p, hp, -⟩ := Option.bind_eq_some_iff.mp rest
    exact ⟨x, parentIn_lt hp, hx⟩
  obtain ⟨i, hi, j, hj, ne, same⟩ :=
    Finset.exists_ne_map_eq_of_card_lt_of_maps_to
      (s := Finset.range k) (t := Finset.range groups.length)
      (f := fun i => (climb groups i g).getD 0) (by simpa using long) (by
        intro i hi
        obtain ⟨x, hx, at_⟩ := inside i (by simpa using hi)
        simpa [at_] using hx)
  wlog lt : i < j generalizing i j
  · exact this j hj i hi ne.symm same.symm (by omega)
  obtain ⟨x, -, hx⟩ := inside i (by simpa using hi)
  obtain ⟨y, -, hy⟩ := inside j (by simpa using hj)
  have hj' : j < k := by simpa using hj
  have met : climb groups i g = climb groups j g := by
    rw [hx, hy] at same ⊢
    simpa using same
  refine ⟨i + (k - j), by omega, ?_⟩
  rw [climb_add, met, ← climb_add, Nat.add_sub_cancel' hj'.le]
  exact h

theorem exists_climb_le {k g top : Nat} (h : climb groups k g = some top) :
    ∃ j ≤ groups.length, climb groups j g = some top := by
  induction k using Nat.strong_induction_on with
  | _ k ih =>
    by_cases long : groups.length < k
    · obtain ⟨j, hj, shorter⟩ := exists_climb_lt h long
      exact ih j hj shorter
    · exact ⟨k, not_lt.mp long, h⟩

theorem isAbove_of_climb (c : Collection) {k steps g top : Nat} (le : k ≤ steps)
    (h : climb c.groups k g = some top) : c.isAbove top steps g = true := by
  induction steps generalizing k g with
  | zero =>
    obtain rfl : k = 0 := by omega
    simpa [Collection.isAbove, climb] using h
  | succ steps ih =>
    cases k with
    | zero => simp [Collection.isAbove, show g = top by simpa [climb] using h]
    | succ k =>
      obtain ⟨p, hp, rest⟩ := Option.bind_eq_some_iff.mp h
      have up : c.parent? g = some p := hp
      simp [Collection.isAbove, up, ih (by omega) rest]

/-- As many steps as there are groups are enough to find everything above a group. -/
theorem isAbove_of_reaches (c : Collection) {g top : Nat}
    (h : ReflTransGen (IsChild c.groups) g top) :
    c.isAbove top c.groups.length g = true := by
  obtain ⟨k, hk⟩ := exists_climb h
  obtain ⟨j, hj, hj'⟩ := exists_climb_le hk
  exact isAbove_of_climb c hj hj'

/-! ## Changes that leave the forest as it is -/

/-- Two groups with the same parent and the same children. -/
structure SameLinks (g g' : Group) : Prop where
  parent : g'.parent = g.parent
  children : ∀ child, g'.members.count (.group child) = g.members.count (.group child)

theorem SameLinks.rfl {g : Group} : SameLinks g g := ⟨Eq.refl _, fun _ => Eq.refl _⟩

theorem forall₂_modify {α : Type} {R : α → α → Prop} (refl : ∀ a, R a a) {f : α → α}
    (hf : ∀ a, R a (f a)) (i : Nat) (l : List α) : List.Forall₂ R l (l.modify i f) := by
  induction l generalizing i with
  | nil => simp
  | cons a l ih =>
    cases i with
    | zero => simp [hf, List.forall₂_same, refl]
    | succ i => simp [refl, ih i]

theorem sameLinks_at {groups groups' : List Group} (h : List.Forall₂ SameLinks groups groups')
    (g : Nat) : Option.Rel SameLinks groups[g]? groups'[g]? := by
  induction h generalizing g with
  | nil => exact .none
  | cons first _ ih =>
    cases g with
    | zero => exact .some first
    | succ g => simpa using ih g

theorem parentIn_of_sameLinks {groups groups' : List Group}
    (h : List.Forall₂ SameLinks groups groups') : parentIn groups' = parentIn groups := by
  funext g
  have related := sameLinks_at h g
  unfold parentIn
  generalize groups[g]? = old at related
  generalize groups'[g]? = new at related
  cases related with
  | none => rfl
  | some same => simpa using same.parent

theorem children_of_sameLinks {groups groups' : List Group}
    (h : List.Forall₂ SameLinks groups groups') (child g : Nat) :
    (membersIn groups' g).count (.group child) = (membersIn groups g).count (.group child) := by
  have related := sameLinks_at h g
  unfold membersIn
  generalize groups[g]? = old at related
  generalize groups'[g]? = new at related
  cases related with
  | none => rfl
  | some same => simpa using same.children child

theorem isForest_of_sameLinks {groups groups' : List Group}
    (h : List.Forall₂ SameLinks groups groups') (forest : IsForest groups) :
    IsForest groups' := by
  have parents := parentIn_of_sameLinks h
  have up : IsChild groups' = IsChild groups := by
    funext a b
    simp only [IsChild, parents]
  refine ⟨?_, ?_⟩
  · rw [up, parents]
    exact forest.rooted
  · intro child g
    rw [children_of_sameLinks h, parents]
    exact forest.listed child g

theorem isForest_modify {f : Group → Group} (hf : ∀ g, SameLinks g (f g)) (i : Nat)
    (forest : IsForest groups) : IsForest (groups.modify i f) :=
  isForest_of_sameLinks (forall₂_modify (fun _ => .rfl) hf i groups) forest

theorem insert_symbol_sameLinks (symbol : Nat) (g : Group) :
    SameLinks g (g.insert (.symbol symbol)) := by
  unfold Group.insert
  split
  · exact .rfl
  · exact ⟨rfl, fun child => by simp⟩

/-! ## New groups and new children -/

theorem isForest_nil : IsForest [] where
  rooted g := ⟨g, .refl, rfl⟩
  listed child g := by simp [membersIn, parentIn]

theorem parentIn_append (g : Group) (free : g.parent = none) :
    parentIn (groups ++ [g]) = parentIn groups :=
  funext (bind_getElem?_append groups free)

theorem membersIn_append (g : Group) (bare : g.members = []) :
    membersIn (groups ++ [g]) = membersIn groups :=
  funext (getD_getElem?_append groups bare)

theorem isForest_append (g : Group) (free : g.parent = none) (bare : g.members = [])
    (forest : IsForest groups) : IsForest (groups ++ [g]) := by
  have parents : parentIn (groups ++ [g]) = parentIn groups := parentIn_append g free
  have up : IsChild (groups ++ [g]) = IsChild groups := by
    funext a b
    simp only [IsChild, parents]
  refine ⟨?_, ?_⟩
  · rw [up, parents]
    exact forest.rooted
  · rw [membersIn_append g bare, parents]
    exact forest.listed

@[simp] theorem insert_parent (m : Member) (g : Group) : (g.insert m).parent = g.parent := by
  unfold Group.insert
  split <;> rfl

section

variable {c : Collection} {child parent : Nat}

theorem parentIn_adopt (known : child < c.groups.length) (g : Nat) :
    parentIn (c.adopt child parent).groups g =
      if g = child then some parent else parentIn c.groups g := by
  unfold parentIn Collection.adopt Collection.modifyGroup
  rw [List.getElem?_modify, List.getElem?_modify]
  by_cases hc : g = child
  · subst hc
    rw [List.getElem?_eq_getElem known]
    by_cases hp : parent = g <;> simp [hp]
  · by_cases hp : parent = g <;> cases c.groups[g]? <;> simp [hc, Ne.symm hc, hp]

theorem count_membersIn_adopt (known : parent < c.groups.length)
    (new : Member.group child ∉ membersIn c.groups parent) (x g : Nat) :
    (membersIn (c.adopt child parent).groups g).count (.group x) =
      (membersIn c.groups g).count (.group x) + if x = child ∧ g = parent then 1 else 0 := by
  unfold membersIn Collection.adopt Collection.modifyGroup
  rw [List.getElem?_modify, List.getElem?_modify]
  by_cases hg : g = parent
  · subst hg
    have absent : Member.group child ∉ c.groups[g].members := by
      simpa [membersIn, List.getElem?_eq_getElem known] using new
    rw [List.getElem?_eq_getElem known]
    by_cases hx : child = x <;> by_cases hc : child = g <;>
      simp_all [Group.insert, eq_comm]
  · by_cases hc : child = g <;> cases c.groups[g]? <;> simp [hg, Ne.symm hg, hc]

/-- A new edge to a parent that is not below the child keeps the forest. -/
theorem isForest_adopt (hc : child < c.groups.length) (hp : parent < c.groups.length)
    (free : parentIn c.groups child = none)
    (apart : ¬ ReflTransGen (IsChild c.groups) parent child) (forest : IsForest c.groups) :
    IsForest (c.adopt child parent).groups := by
  have new : Member.group child ∉ membersIn c.groups parent := by
    rw [← List.count_eq_zero, forest.listed, free]
    simp
  have parents (g : Nat) : parentIn (c.adopt child parent).groups g =
      if g = child then some parent else parentIn c.groups g := parentIn_adopt hc g
  have kept : ∀ {a b}, ReflTransGen (IsChild c.groups) a b →
      ReflTransGen (IsChild (c.adopt child parent).groups) a b := by
    intro a b way
    refine ReflTransGen.mono (fun x y step => ?_) _ _ way
    have ne : x ≠ child := by
      rintro rfl
      exact absurd (free.symm.trans step) (by simp)
    simpa [IsChild, parents, ne] using step
  refine ⟨?_, ?_⟩
  · intro g
    obtain ⟨root, way, top⟩ := forest.rooted g
    by_cases hr : root = child
    · -- The way to the old root goes on from the new parent to the root of that.
      subst hr
      obtain ⟨root', way', top'⟩ := forest.rooted parent
      have ne : root' ≠ root := by
        rintro rfl
        exact apart way'
      have edge : IsChild (c.adopt root parent).groups root parent := by simp [IsChild, parents]
      exact ⟨root', ((kept way).tail edge).trans (kept way'), by simp [parents, ne, top']⟩
    · exact ⟨root, kept way, by simp [parents, hr, top]⟩
  · intro x g
    rw [count_membersIn_adopt hp new, forest.listed, parents]
    by_cases hx : x = child
    · subst hx
      simp [free, eq_comm]
    · simp [hx]

end

theorem change_isForest {c c' : Collection} (h : c.Change c') (forest : IsForest c.groups) :
    IsForest c'.groups := by
  cases h with
  | group name title new => exact isForest_append _ rfl rfl forest
  | retitle group title =>
    refine isForest_modify (fun g => ?_) group forest
    split <;> exact ⟨rfl, fun _ => rfl⟩
  | document group doc =>
    refine isForest_modify (fun g => ?_) group forest
    exact ⟨rfl, fun _ => rfl⟩
  | connect group link path line known within =>
    cases link with
    | parentOf child =>
      rw [Collection.connect]
      obtain same | ⟨found, same⟩ | ⟨above, free, same⟩ :=
        Collection.joinGroup_cases c child group path line
      · rw [same]
        exact forest
      · rw [same]
        exact forest
      · rw [same]
        refine isForest_adopt within known free (fun way => ?_) forest
        rw [isAbove_of_reaches c way] at above
        exact absurd above (by simp)
    | member symbol =>
      exact isForest_modify (insert_symbol_sameLinks symbol) group forest
    | file file =>
      refine isForest_modify (fun g => ?_) group forest
      split <;> exact ⟨rfl, fun _ => rfl⟩
  | _ => exact forest

theorem changes_isForest {c c' : Collection} (h : c.Changes c') (forest : IsForest c.groups) :
    IsForest c'.groups := by
  induction h with
  | refl => exact forest
  | tail _ step ih => exact change_isForest step ih

end GroupForest

end DocComment
