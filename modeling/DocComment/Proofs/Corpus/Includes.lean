import DocComment.Proofs.Corpus.Integrity
import Mathlib.Data.List.Lex

/-!
# Groups that include each other

A group includes another one if one of its files includes a file of the other. Nothing else puts a
group into the lists of include relations, so the two lists agree; each is in the order of the names
of the groups, which are all different.
-/

set_option autoImplicit false

namespace DocComment

open Collection

/-! ## The order of names -/

namespace Text

/-- Texts are in the lexicographic order of their characters. -/
theorem precedes_iff {a b : Text} : precedes a b = true ↔ a = b ∨ List.Lex (· < ·) a b := by
  fun_induction precedes a b with
  | case1 b => cases b <;> simp
  | case2 => simp
  | case3 a c b ih => simpa using ih
  | case4 c a d b other =>
    rw [List.cons_lex_cons_iff]
    simp [other, Char.lt_def, UInt32.lt_iff_toNat_lt]

theorem precedes_total (a b : Text) : (precedes a b || precedes b a) = true := by
  rw [Bool.or_eq_true, precedes_iff, precedes_iff]
  rcases trichotomous_of (List.Lex (· < ·)) a b with before | rfl | behind
  · exact .inl (.inr before)
  · exact .inl (.inl rfl)
  · exact .inr (.inr behind)

theorem precedes_trans (a b c : Text) (h : precedes a b = true) (h' : precedes b c = true) :
    precedes a c = true := by
  rw [precedes_iff] at *
  rcases h with rfl | h
  · exact h'
  · rcases h' with rfl | h'
    · exact .inr h
    · exact .inr (List.lt_trans h h')

end Text

/-- Whether some groups of a model are in the order of their names, no two of which are the same. -/
def Model.InNameOrder (m : Model) (groups : List Nat) : Prop :=
  ∃ names : List Text, groups.map (fun i => m.groups[i]?.map Group.name) = names.map some ∧
    names.Pairwise (List.Lex (· < ·))

namespace Collection

variable {c : Collection}

theorem getElem?_map_name {i : Nat} (inside : i < c.groups.length) :
    (c.groups.map Group.name)[i]? = some (c.groupName i) := by
  simp [groupName, inside]

theorem byName_pairwise (distinct : (c.groups.map Group.name).Nodup) {groups : List Nat}
    (known : ∀ i ∈ groups, i < c.groups.length) :
    (c.byName groups).Pairwise fun i j =>
      List.Lex (· < ·) (c.groupName i) (c.groupName j) := by
  have sorted : (c.byName groups).Pairwise fun i j =>
      Text.precedes (c.groupName i) (c.groupName j) = true := by
    apply List.pairwise_mergeSort
    · exact fun _ _ _ => Text.precedes_trans _ _ _
    · exact fun _ _ => Text.precedes_total _ _
  refine (sorted.and (byName_nodup c groups)).imp_of_mem ?_
  rintro i j hi hj ⟨before, other⟩
  refine (Text.precedes_iff.mp before).resolve_left fun same => other ?_
  have at_i := getElem?_map_name (known i (mem_byName.mp hi))
  have at_j := getElem?_map_name (known j (mem_byName.mp hj))
  have inside : i < (c.groups.map Group.name).length := (List.getElem?_eq_some_iff.mp at_i).1
  exact (List.getElem?_inj inside distinct).mp (at_i.trans (same ▸ at_j.symm))

theorem byName_inNameOrder (options : Options) (distinct : (c.groups.map Group.name).Nodup)
    {groups : List Nat} (known : ∀ i ∈ groups, i < c.groups.length) :
    (c.toModel options).InNameOrder (c.byName groups) := by
  refine ⟨(c.byName groups).map c.groupName, ?_,
    List.pairwise_map.mpr (byName_pairwise distinct known)⟩
  rw [List.map_map]
  refine List.map_congr_left fun i hi => ?_
  have at_ := getElem?_map_name (known i (mem_byName.mp hi))
  rw [← List.getElem?_map, toModel_groups_map options c Group.name fun _ _ _ _ => rfl]
  exact at_

end Collection

/-! ## Include relations -/

/-- Whether a path stands for the file at place `k`: the first file with that path or, if there is
none, the first with the same file name. -/
def StandsFor (files : List File) (path : Text) (k : Nat) : Prop :=
  FirstOr (fun f => Path.same f.path path = true)
    (fun f => Path.fileName? f.path = Path.fileName? path) files k

/-- Whether a file of group `i` includes a file of group `j`, which is another group. -/
def Model.Includes (m : Model) (i j : Nat) : Prop :=
  i ≠ j ∧ ∃ f ∈ m.files, f.group = some i ∧ ∃ path ∈ f.includes, ∃ k target,
    m.files[k]? = some target ∧ StandsFor m.files path k ∧ target.group = some j

namespace Collection

variable {c : Collection}

theorem includedFile?_eq_some_iff {files : List File} {path : Text} {f : File} :
    includedFile? files path = some f ↔ ∃ k, files[k]? = some f ∧ StandsFor files path k :=
  find?_or_eq_some_iff (fun _ => Iff.rfl) fun _ => beq_iff_eq

theorem mem_includeEdges_iff_includes (options : Options) {i j : Nat} :
    (i, j) ∈ includeEdges c.files ↔ (c.toModel options).Includes i j := by
  have files : (c.toModel options).files = c.files := rfl
  rw [mem_includeEdges, Model.Includes, files]
  simp only [includedFile?_eq_some_iff]
  refine and_congr_right fun _ => exists_congr fun f => and_congr_right fun _ =>
    and_congr_right fun _ => exists_congr fun path => and_congr_right fun _ => ?_
  constructor
  · rintro ⟨target, ⟨k, at_, first⟩, group⟩
    exact ⟨k, target, at_, first, group⟩
  · rintro ⟨k, target, at_, first, group⟩
    exact ⟨target, ⟨k, at_, first⟩, group⟩

/-- Finishing a collection sets the include relations of its groups. -/
theorem getElem?_toModel_groups (options : Options) {i : Nat} {g : Group}
    (counted : CountedBy Group.id c.groups) (h : (c.toModel options).groups[i]? = some g) :
    g.includes = c.byName (((includeEdges c.files).filter fun e => e.1 == i).map Prod.snd) ∧
      g.includedBy = c.byName (((includeEdges c.files).filter fun e => e.2 == i).map Prod.fst) := by
  obtain ⟨before, at_, rfl⟩ := Option.map_eq_some_iff.mp ((List.getElem?_map ..).symm.trans h)
  have id : before.id = i := counted.getElem?_eq at_
  rw [← id]
  split <;> exact ⟨rfl, rfl⟩

theorem mem_includes_iff (options : Options) {i : Nat} {g : Group}
    (counted : CountedBy Group.id c.groups) (h : (c.toModel options).groups[i]? = some g)
    (j : Nat) :
    (j ∈ g.includes ↔ (c.toModel options).Includes i j) ∧
      (j ∈ g.includedBy ↔ (c.toModel options).Includes j i) := by
  obtain ⟨includes, includedBy⟩ := getElem?_toModel_groups options counted h
  rw [includes, includedBy, mem_byName, mem_byName, ← mem_includeEdges_iff_includes,
    ← mem_includeEdges_iff_includes]
  constructor <;> simp

theorem includes_inNameOrder (options : Options) {i : Nat} {g : Group}
    (counted : CountedBy Group.id c.groups) (distinct : (c.groups.map Group.name).Nodup)
    (within : ∀ f ∈ c.files, f.Within c.extent) (h : (c.toModel options).groups[i]? = some g) :
    (c.toModel options).InNameOrder g.includes ∧ (c.toModel options).InNameOrder g.includedBy := by
  obtain ⟨includes, includedBy⟩ := getElem?_toModel_groups options counted h
  have inside (e : Nat × Nat) (he : e ∈ includeEdges c.files) :
      e.1 < c.groups.length ∧ e.2 < c.groups.length := includeEdges_lt within he
  rw [includes, includedBy]
  constructor
  all_goals
    refine byName_inNameOrder options distinct fun j hj => ?_
    obtain ⟨e, he, rfl⟩ := List.mem_map.mp hj
  · exact (inside e (List.mem_of_mem_filter he)).2
  · exact (inside e (List.mem_of_mem_filter he)).1

end Collection

/-- The include relations of groups are those of their files, seen from both ends. -/
theorem include_relations_mutual (options : Options) (contributions : List Contribution) :
    let m := Model.ofContributions options contributions
    (∀ (i : Nat) (g : Group), m.groups[i]? = some g →
      (∀ j, j ∈ g.includes ↔ m.Includes i j) ∧ m.InNameOrder g.includes ∧
        m.InNameOrder g.includedBy) ∧
      ∀ (i j : Nat) (g h : Group), m.groups[i]? = some g → m.groups[j]? = some h →
        (i ∈ h.includedBy ↔ j ∈ g.includes) := by
  intro m
  have counted := (Collection.ofContributions_numbered contributions).groups
  have serves := ofContributions_serves contributions
  have distinct := serves.names ▸ serves.distinct
  have within := (Collection.ofContributions_within contributions).files
  refine ⟨fun i g at_ => ⟨fun j => ?_, ?_⟩, fun i j g h at_ at_' => ?_⟩
  · exact (mem_includes_iff options counted at_ j).1
  · exact includes_inNameOrder options counted distinct within at_
  · have includedBy := (mem_includes_iff options counted at_' i).2
    exact includedBy.trans (mem_includes_iff options counted at_ j).1.symm

/-- No file is called `Test.h`, so the header in another directory is meant. -/
example :
    let placed (index : Nat) (path : String) (includes : List Text) (group : Text) : Contribution :=
      ⟨index, path.toList, includes, none,
        [.group .define group group [] none 1, .file [group]], []⟩
    let m := Model.ofContributions {} [placed 0 "include/Test.h" [] "H".toList,
      placed 1 "src/Test.c" ["Test.h".toList] "S".toList]
    m.groups.map (fun g => (g.includes, g.includedBy)) = [([], [1]), ([0], [])] := by
  decide +kernel

end DocComment
