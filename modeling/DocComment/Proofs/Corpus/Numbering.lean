import DocComment.Corpus.Resolved
import DocComment.Proofs.Corpus.Change
import Mathlib.Data.Set.Basic
import Mathlib.Order.Bounds.Defs

/-!
# Numbers are positions

Files, groups and symbols carry the number of the place they stand at. Every elementary change of
a collection keeps this, and so does finishing it.
-/

set_option autoImplicit false

namespace DocComment

/-- The things of a list are numbered from zero on. -/
def CountedBy {α : Type} (number : α → Nat) (l : List α) : Prop :=
  l.map number = List.range l.length

section

variable {α : Type} {number : α → Nat} {l : List α}

theorem countedBy_nil : CountedBy number [] := rfl

theorem CountedBy.append (h : CountedBy number l) {a : α} (last : number a = l.length) :
    CountedBy number (l ++ [a]) := by
  unfold CountedBy at *
  simp [h, last, List.range_succ]

theorem CountedBy.modify (h : CountedBy number l) {f : α → α} (hf : ∀ a, number (f a) = number a)
    (i : Nat) : CountedBy number (l.modify i f) := by
  have same : (l.modify i f).map number = l.map number := by
    clear h
    induction l generalizing i with
    | nil => simp
    | cons a rest ih => cases i <;> simp [hf, ih]
  unfold CountedBy at *
  rw [same, h, List.length_modify]

theorem CountedBy.map {β : Type} {number' : β → Nat} (h : CountedBy number l) {f : α → β}
    (hf : ∀ a, number' (f a) = number a) : CountedBy number' (l.map f) := by
  unfold CountedBy at *
  simp [Function.comp_def, hf, h]

theorem CountedBy.number_getElem (h : CountedBy number l) {i : Nat} (hi : i < l.length) :
    number l[i] = i := by
  have at_ := congrArg (·[i]?) h
  simpa [hi] using at_

theorem CountedBy.getElem?_eq (h : CountedBy number l) {i : Nat} {a : α} (ha : l[i]? = some a) :
    number a = i := by
  obtain ⟨hi, rfl⟩ := List.getElem?_eq_some_iff.mp ha
  exact h.number_getElem hi

theorem CountedBy.getElem?_of_mem (h : CountedBy number l) {a : α} (ha : a ∈ l) :
    l[number a]? = some a := by
  obtain ⟨i, hi, rfl⟩ := List.getElem_of_mem ha
  rw [h.number_getElem hi, List.getElem?_eq_getElem hi]

end

/-! ## Looking at a place -/

section

variable {α β : Type}

/-- A place of which there is nothing to see might as well not be there. -/
theorem bind_getElem?_append {view : α → Option β} (l : List α) {a : α} (free : view a = none)
    (i : Nat) : (l ++ [a])[i]?.bind view = l[i]?.bind view := by
  rcases Nat.lt_trichotomy i l.length with lt | rfl | gt
  · rw [List.getElem?_append_left lt]
  · simp [free]
  · rw [List.getElem?_eq_none (by simpa using gt), List.getElem?_eq_none gt.le]

theorem getD_getElem?_append {view : α → β} (l : List α) {a : α} {nothing : β}
    (bare : view a = nothing) (i : Nat) :
    ((l ++ [a])[i]?.map view).getD nothing = (l[i]?.map view).getD nothing := by
  rcases Nat.lt_trichotomy i l.length with lt | rfl | gt
  · rw [List.getElem?_append_left lt]
  · simp [bare]
  · rw [List.getElem?_eq_none (by simpa using gt), List.getElem?_eq_none gt.le]

theorem map_getElem?_modify {view : α → β} (l : List α) {f : α → α}
    (kept : ∀ a, view (f a) = view a) (i j : Nat) :
    (l.modify i f)[j]?.map view = l[j]?.map view := by
  rw [List.getElem?_modify]
  by_cases here : i = j <;> cases l[j]? <;> simp [here, kept]

theorem bind_getElem?_modify {view : α → Option β} (l : List α) {f : α → α}
    (kept : ∀ a, view (f a) = view a) (i j : Nat) :
    (l.modify i f)[j]?.bind view = l[j]?.bind view := by
  rw [List.getElem?_modify]
  by_cases here : i = j <;> cases l[j]? <;> simp [here, kept]

end

/-! ## The first place -/

section

variable {α : Type} {P Q : α → Prop} {l : List α}

/-- The places of a list at which a property holds. -/
def placesOf (P : α → Prop) (l : List α) : Set Nat := {i | ∃ a, l[i]? = some a ∧ P a}

/-- Whether place `i` is the first with one property or, if there is none, the first with
another. -/
def FirstOr (P Q : α → Prop) (l : List α) (i : Nat) : Prop :=
  IsLeast (placesOf P l) i ∨ placesOf P l = ∅ ∧ IsLeast (placesOf Q l) i

theorem placesOf_map {β : Type} {P : β → Prop} (f : α → β) :
    placesOf P (l.map f) = placesOf (fun a => P (f a)) l := by
  ext i
  simp [placesOf]

/-- Two lists that look alike have the same places. -/
theorem firstOr_congr {β : Type} {P Q : β → Prop} {l' : List α} {view : α → β}
    (alike : l.map view = l'.map view) (i : Nat) :
    FirstOr (fun a => P (view a)) (fun a => Q (view a)) l i ↔
      FirstOr (fun a => P (view a)) (fun a => Q (view a)) l' i := by
  unfold FirstOr
  simp only [← placesOf_map view, alike]

theorem FirstOr.exists_getElem? {i : Nat} (h : FirstOr P Q l i) : ∃ a, l[i]? = some a := by
  rcases h with ⟨⟨a, at_, -⟩, -⟩ | ⟨-, ⟨a, at_, -⟩, -⟩
  · exact ⟨a, at_⟩
  · exact ⟨a, at_⟩

theorem placesOf_eq_empty_iff : placesOf P l = ∅ ↔ ∀ a ∈ l, ¬P a := by
  rw [Set.eq_empty_iff_forall_notMem]
  constructor
  · intro nowhere a ha holds
    obtain ⟨i, hi⟩ := List.mem_iff_getElem?.mp ha
    exact nowhere i ⟨a, hi, holds⟩
  · rintro nothing i ⟨a, hi, holds⟩
    exact nothing a (List.mem_of_getElem? hi) holds

theorem find?_eq_none_iff_places {p : α → Bool} (hp : ∀ a, p a = true ↔ P a) :
    l.find? p = none ↔ placesOf P l = ∅ := by
  rw [placesOf_eq_empty_iff, List.find?_eq_none]
  simp only [hp]

theorem find?_eq_some_iff_isLeast {p : α → Bool} (hp : ∀ a, p a = true ↔ P a) {a : α} :
    l.find? p = some a ↔ ∃ i, l[i]? = some a ∧ IsLeast (placesOf P l) i := by
  rw [List.find?_eq_some_iff_getElem]
  constructor
  · rintro ⟨holds, i, hi, rfl, before⟩
    have at_ := List.getElem?_eq_getElem hi
    refine ⟨i, at_, ⟨_, at_, (hp _).mp holds⟩, ?_⟩
    rintro j ⟨b, hj, sooner⟩
    by_contra later
    obtain ⟨inside, rfl⟩ := List.getElem?_eq_some_iff.mp hj
    simpa [(hp _).mpr sooner] using before j (Nat.lt_of_not_le later)
  · rintro ⟨i, hi, ⟨b, hb, holds⟩, least⟩
    obtain rfl := Option.some.inj (hi.symm.trans hb)
    obtain ⟨inside, rfl⟩ := List.getElem?_eq_some_iff.mp hi
    refine ⟨(hp _).mpr holds, i, inside, rfl, fun j hj => ?_⟩
    by_contra sooner
    have place : j ∈ placesOf P l :=
      ⟨l[j], List.getElem?_eq_getElem _, (hp _).mp (by simpa using sooner)⟩
    exact absurd (least place) (Nat.not_le_of_lt hj)

theorem find?_or_eq_some_iff {p q : α → Bool} (hp : ∀ a, p a = true ↔ P a)
    (hq : ∀ a, q a = true ↔ Q a) {a : α} :
    (l.find? p).or (l.find? q) = some a ↔ ∃ i, l[i]? = some a ∧ FirstOr P Q l i := by
  simp only [Option.or_eq_some_iff, find?_eq_some_iff_isLeast hp, find?_eq_some_iff_isLeast hq,
    find?_eq_none_iff_places hp, FirstOr, and_or_left, exists_or, ← exists_and_left,
    and_left_comm]

end

namespace Collection

structure Numbered (c : Collection) : Prop where
  files : CountedBy File.id c.files
  groups : CountedBy Group.id c.groups
  symbols : CountedBy Symbol.id c.symbols

@[simp] theorem insert_id (m : Member) (g : Group) : (g.insert m).id = g.id := by
  unfold Group.insert
  split <;> rfl

theorem adopt_numbered {c : Collection} (h : c.Numbered) (child parent : Nat) :
    (c.adopt child parent).Numbered where
  files := h.files
  groups :=
    (h.groups.modify (f := fun g => { g with parent := some parent }) (fun _ => rfl) child).modify
      (fun g => insert_id (.group child) g) parent
  symbols := h.symbols

theorem connect_numbered {c : Collection} (h : c.Numbered) (group : Nat) (link : GroupLink)
    (path : Text) (line : Nat) : (c.connect group link path line).Numbered := by
  cases link with
  | parentOf child =>
    rw [connect]
    obtain same | ⟨found, same⟩ | ⟨-, -, same⟩ := joinGroup_cases c child group path line
    · rw [same]
      exact h
    · rw [same]
      exact ⟨h.files, h.groups, h.symbols⟩
    · rw [same]
      exact adopt_numbered h child group
  | member symbol =>
    refine ⟨h.files, h.groups.modify (fun g => insert_id (.symbol symbol) g) group,
      h.symbols.modify ?_ symbol⟩
    exact fun _ => rfl
  | file file =>
    refine ⟨h.files.modify ?_ file, h.groups.modify (fun g => ?_) group, h.symbols⟩
    · exact fun _ => rfl
    · split <;> rfl

theorem Change.numbered {c c' : Collection} (step : Change c c') (h : c.Numbered) :
    c'.Numbered := by
  cases step with
  | file path includes doc => exact ⟨h.files.append rfl, h.groups, h.symbols⟩
  | group name title new => exact ⟨h.files, h.groups.append rfl, h.symbols⟩
  | retitle group title =>
    refine ⟨h.files, h.groups.modify (fun g => ?_) group, h.symbols⟩
    split <;> rfl
  | document group doc =>
    refine ⟨h.files, h.groups.modify ?_ group, h.symbols⟩
    exact fun _ => rfl
  | declare decl doc file _ _ => exact ⟨h.files, h.groups, h.symbols.append rfl⟩
  | redeclare index file doc _ =>
    refine ⟨h.files, h.groups, h.symbols.modify ?_ index⟩
    exact fun _ => rfl
  | connect group link path line _ _ => exact connect_numbered h group link path line
  | _ => exact ⟨h.files, h.groups, h.symbols⟩

theorem Changes.numbered {c c' : Collection} (h : Changes c c') (hc : c.Numbered) :
    c'.Numbered := by
  induction h with
  | refl => exact hc
  | tail _ step ih => exact step.numbered ih

theorem empty_numbered : Numbered {} := ⟨countedBy_nil, countedBy_nil, countedBy_nil⟩

theorem ofContributions_numbered (contributions : List Contribution) :
    (ofContributions contributions).Numbered :=
  (ofContributions_changes contributions).numbered empty_numbered

end Collection

open Collection

/-- What stands at a place of the model has its number. -/
structure Model.Numbered (m : Model) : Prop where
  files : CountedBy File.id m.files
  groups : CountedBy Group.id m.groups
  symbols : CountedBy Symbol.id m.symbols

theorem Collection.withOwners_counted {c : Collection} (h : CountedBy Symbol.id c.symbols)
    (aligned : c.identities.length = c.symbols.length) : CountedBy Symbol.id c.withOwners := by
  have ids : c.withOwners.map Symbol.id = c.symbols.map Symbol.id := by
    unfold withOwners
    generalize owner? c.symbols = owner
    clear h
    generalize c.symbols = symbols at aligned ⊢
    generalize c.identities = identities at aligned ⊢
    induction symbols generalizing identities with
    | nil => simp
    | cons s rest ih =>
      cases identities with
      | nil => simp at aligned
      | cons i others => simpa using ih others (by simpa using aligned)
  unfold CountedBy at *
  have lengths := congrArg List.length ids
  rw [List.length_map, List.length_map] at lengths
  rw [ids, h, lengths]

theorem Model.ofContributions_numbered (options : Options) (contributions : List Contribution) :
    (Model.ofContributions options contributions).Numbered := by
  have numbered := Collection.ofContributions_numbered contributions
  have coherent := (ofContributions_changes contributions).coherent empty_coherent
  refine ⟨numbered.files, numbered.groups.map fun g => ?_,
    withOwners_counted numbered.symbols coherent.identities⟩
  split <;> rfl

end DocComment
