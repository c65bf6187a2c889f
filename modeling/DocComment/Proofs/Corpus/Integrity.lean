import DocComment.Proofs.Corpus.GroupWalk
import DocComment.Proofs.Corpus.Membership
import DocComment.Proofs.Reference.Complete
import DocComment.Proofs.Reference.Shown

/-!
# Every number stands for something

Symbols, groups and files refer to each other by position. A change stores a position only of
something that exists, nothing is ever taken away, and neither finishing a collection nor resolving
references moves anything; so every position that a model holds is one of the model.
-/

set_option autoImplicit false

namespace DocComment

open Collection

/-- How many files, groups and symbols there are to refer to. -/
structure Extent where
  files : Nat
  groups : Nat
  symbols : Nat

structure Extent.Le (n n' : Extent) : Prop where
  files : n.files ≤ n'.files
  groups : n.groups ≤ n'.groups
  symbols : n.symbols ≤ n'.symbols

def Collection.extent (c : Collection) : Extent :=
  ⟨c.files.length, c.groups.length, c.symbols.length⟩

def Model.extent (m : Model) : Extent := ⟨m.files.length, m.groups.length, m.symbols.length⟩

def File.Within (n : Extent) (f : File) : Prop := ∀ g ∈ f.group, g < n.groups

def Member.Within (n : Extent) : Member → Prop
  | .symbol i => i < n.symbols
  | .group i => i < n.groups

structure Symbol.Within (n : Extent) (s : Symbol) : Prop where
  file : s.file < n.files
  redeclaredIn : ∀ f ∈ s.redeclaredIn, f < n.files
  group : ∀ g ∈ s.group, g < n.groups
  owner : ∀ o ∈ s.owner, o < n.symbols

/-- What a group refers to exists, and each of its lists has it once. -/
structure Group.Within (n : Extent) (g : Group) : Prop where
  parent : ∀ p ∈ g.parent, p < n.groups
  members : g.members.Nodup ∧ ∀ x ∈ g.members, x.Within n
  files : g.files.Nodup ∧ ∀ f ∈ g.files, f < n.files
  includes : g.includes.Nodup ∧ ∀ i ∈ g.includes, i < n.groups
  includedBy : g.includedBy.Nodup ∧ ∀ i ∈ g.includedBy, i < n.groups

/-- The numbers of a model are those of its parts, no two groups have one name, everything that is
referred to exists, and files and groups agree on who belongs where. -/
structure Model.Integral (m : Model) : Prop where
  numbered : m.Numbered
  names : (m.groups.map Group.name).Nodup
  files : ∀ f ∈ m.files, f.Within m.extent
  groups : ∀ g ∈ m.groups, g.Within m.extent
  symbols : ∀ s ∈ m.symbols, s.Within m.extent
  roots : ∀ g ∈ m.roots, g < m.groups.length
  anchors : ∀ a ∈ m.anchors, m.Has a.owner
  /-- A file whose group is `i` is one of the files of that group. -/
  attached : ∀ f ∈ m.files, ∀ i ∈ f.group, ∃ g, m.groups[i]? = some g ∧ f.id ∈ g.files
  /-- A file of a group has a group. -/
  placed : ∀ g ∈ m.groups, ∀ i ∈ g.files, ∃ f, m.files[i]? = some f ∧ f.group.isSome

/-! ## Changes -/

theorem forall_mem_modify {α : Type} {P : α → Prop} {l : List α} (h : ∀ a ∈ l, P a) {f : α → α}
    (hf : ∀ a, P a → P (f a)) (i : Nat) : ∀ a ∈ l.modify i f, P a := by
  intro a ha
  obtain ⟨j, hj⟩ := List.mem_iff_getElem?.mp ha
  rw [List.getElem?_modify] at hj
  obtain ⟨b, hb, rfl⟩ := Option.map_eq_some_iff.mp hj
  have old := h b (List.mem_of_getElem? hb)
  split
  · exact hf b old
  · exact old

theorem forall_mem_concat {α : Type} {P : α → Prop} {l : List α} (h : ∀ a ∈ l, P a) {a : α}
    (last : P a) : ∀ b ∈ l ++ [a], P b :=
  List.forall_mem_append.mpr ⟨h, List.forall_mem_singleton.mpr last⟩

theorem forall_mem_note {α : Type} [BEq α] [LawfulBEq α] {P : α → Prop} {l : List α}
    (h : ∀ a ∈ l, P a) {a : α} (new : P a) : ∀ b ∈ Outline.note l a, P b := by
  intro b hb
  rcases mem_note.mp hb with old | rfl
  · exact h b old
  · exact new

theorem nodup_note {α : Type} [BEq α] [LawfulBEq α] {l : List α} (h : l.Nodup) (a : α) :
    (Outline.note l a).Nodup := by
  unfold Outline.note
  split
  · exact h
  next new =>
    have absent : a ∉ l := by simpa using new
    simpa using h.concat absent

theorem Group.insert_eq (x : Member) (g : Group) :
    g.insert x = { g with members := Outline.note g.members x } := by
  unfold Group.insert Outline.note
  split <;> rfl

theorem Group.Within.insert {n : Extent} {g : Group} (h : g.Within n) {x : Member}
    (within : x.Within n) : (g.insert x).Within n := by
  rw [insert_eq]
  exact { h with members := ⟨nodup_note h.members.1 x, forall_mem_note h.members.2 within⟩ }

theorem Group.attach_eq (file : Nat) (g : Group) :
    (if g.files.contains file then g else { g with files := g.files ++ [file] }) =
      { g with files := Outline.note g.files file } := by
  unfold Outline.note
  split <;> rfl

theorem Group.Within.attach {n : Extent} {g : Group} (h : g.Within n) {file : Nat}
    (within : file < n.files) :
    Group.Within n
      (if g.files.contains file then g else { g with files := g.files ++ [file] }) := by
  rw [attach_eq]
  exact { h with files := ⟨nodup_note h.files.1 file, forall_mem_note h.files.2 within⟩ }

theorem Symbol.Within.redeclare {n : Extent} {s : Symbol} (h : s.Within n) {file : Nat}
    (known : file < n.files) (doc : Option Doc) : (Collection.redeclare file doc s).Within n := by
  refine { h with redeclaredIn := ?_ }
  unfold Collection.redeclare
  dsimp only
  split
  · exact h.redeclaredIn
  · exact forall_mem_concat h.redeclaredIn known

/-- A first group that is set later is the group that is asked for. -/
theorem forall_mem_or {n group : Nat} {o : Option Nat} (h : ∀ g ∈ o, g < n) (known : group < n) :
    ∀ g ∈ o.or (some group), g < n := by
  cases o with
  | none => simpa using known
  | some kept => simpa using h

namespace Collection

/-- Everything that the collection refers to is within a given extent. -/
structure Within (c : Collection) (n : Extent) : Prop where
  files : ∀ f ∈ c.files, f.Within n
  groups : ∀ g ∈ c.groups, g.Within n
  symbols : ∀ s ∈ c.symbols, s.Within n

section

variable {c c' : Collection} {n : Extent}

theorem Within.modifyGroup (h : c.Within n) {f : Group → Group}
    (hf : ∀ g, g.Within n → (f g).Within n) (group : Nat) : (c.modifyGroup group f).Within n :=
  { h with groups := forall_mem_modify h.groups hf group }

theorem Within.adopt (h : c.Within n) {child parent : Nat} (hc : child < n.groups)
    (hp : parent < n.groups) : (c.adopt child parent).Within n := by
  have given : (c.modifyGroup child fun g => { g with parent := some parent }).Within n := by
    refine h.modifyGroup (fun g hg => ?_) child
    exact { hg with parent := by simpa using hp }
  exact given.modifyGroup (fun g hg => hg.insert (x := .group child) hc) parent

theorem Within.connect (h : c.Within n) (room : c.extent.Le n) {group : Nat} {link : GroupLink}
    (known : group < c.groups.length) (within : link.Within c) (path : Text) (line : Nat) :
    (c.connect group link path line).Within n := by
  have group_lt : group < n.groups := known.trans_le room.groups
  cases link with
  | parentOf child =>
    rw [Collection.connect]
    obtain same | ⟨found, same⟩ | ⟨-, -, same⟩ := joinGroup_cases c child group path line
    · rw [same]
      exact h
    · rw [same]
      exact { h with }
    · rw [same]
      exact h.adopt (lt_of_lt_of_le (b := c.groups.length) within room.groups) group_lt
  | member symbol =>
    have symbol_lt : symbol < n.symbols :=
      lt_of_lt_of_le (b := c.symbols.length) within room.symbols
    have listed := h.modifyGroup (fun g hg => hg.insert (x := .symbol symbol) symbol_lt) group
    refine { listed with symbols := forall_mem_modify h.symbols (fun s hs => ?_) symbol }
    exact { hs with group := forall_mem_or hs.group group_lt }
  | file file =>
    have file_lt : file < n.files := lt_of_lt_of_le (b := c.files.length) within room.files
    have listed := h.modifyGroup (fun g hg => hg.attach file_lt) group
    refine { listed with files := forall_mem_modify h.files (fun f hf => ?_) file }
    exact forall_mem_or hf group_lt

theorem Change.extent_le (step : Change c c') : c.extent.Le c'.extent :=
  ⟨step.grows.files, step.grows.groups, step.grows.symbols⟩

theorem Extent.Le.trans {a b c : Extent} (h : a.Le b) (h' : b.Le c) : a.Le c :=
  ⟨h.files.trans h'.files, h.groups.trans h'.groups, h.symbols.trans h'.symbols⟩

theorem Change.within (step : Change c c') (room : c'.extent.Le n) (h : c.Within n) :
    c'.Within n := by
  have before := Extent.Le.trans step.extent_le room
  cases step with
  | file path includes doc =>
    refine { h with files := forall_mem_concat h.files ?_ }
    simp [File.Within]
  | group name title new =>
    refine { h with groups := forall_mem_concat h.groups ?_ }
    constructor <;> simp
  | retitle group title =>
    refine h.modifyGroup (fun g hg => ?_) group
    split
    · exact { hg with }
    · exact hg
  | document group doc =>
    refine h.modifyGroup ?_ group
    exact fun g hg => { hg with }
  | declare decl doc file known new =>
    have file_lt : file < n.files := known.trans_le before.files
    refine { h with symbols := forall_mem_concat h.symbols ?_ }
    constructor <;> simp [file_lt]
  | redeclare index file doc known =>
    have file_lt : file < n.files := known.trans_le before.files
    exact { h with
      symbols := forall_mem_modify h.symbols (fun s hs => hs.redeclare file_lt doc) index }
  | connect group link path line known within => exact h.connect before known within path line
  | _ => exact { h with }

theorem Changes.within (h : Changes c c') (room : c'.extent.Le n) (hc : c.Within n) :
    c'.Within n := by
  induction h with
  | refl => exact hc
  | tail _ step ih => exact step.within room (ih (Extent.Le.trans step.extent_le room))

end

theorem ofContributions_within (contributions : List Contribution) :
    (ofContributions contributions).Within (ofContributions contributions).extent :=
  (ofContributions_changes contributions).within ⟨le_rfl, le_rfl, le_rfl⟩
    ⟨by simp, by simp, by simp⟩

/-! ## Files and their groups -/

def groupOfFile (c : Collection) (file : Nat) : Option Nat := c.files[file]?.bind File.group

def filesAt (c : Collection) (group : Nat) : List Nat :=
  (c.groups[group]?.map Group.files).getD []

@[simp] theorem insert_files (x : Member) (g : Group) : (g.insert x).files = g.files := by
  rw [Group.insert_eq]

section

variable {c c' : Collection}

theorem filesAt_modifyGroup {f : Group → Group} (kept : ∀ g, (f g).files = g.files)
    (group : Nat) : (c.modifyGroup group f).filesAt = c.filesAt := by
  funext other
  exact congrArg (·.getD []) (map_getElem?_modify c.groups kept group other)

theorem filesAt_joinFile {group : Nat} (known : group < c.groups.length) (file other : Nat) :
    (c.joinFile group file).filesAt other =
      if other = group then Outline.note (c.filesAt group) file else c.filesAt other := by
  unfold filesAt joinFile modifyGroup
  simp only [Group.attach_eq, List.getElem?_modify]
  by_cases here : other = group
  · subst here
    simp [known]
  · simp [here, Ne.symm here]

theorem groupOfFile_joinFile {file : Nat} (known : file < c.files.length) (group other : Nat) :
    (c.joinFile group file).groupOfFile other =
      if other = file then (c.groupOfFile file).or (some group) else c.groupOfFile other := by
  unfold groupOfFile joinFile
  rw [List.getElem?_modify]
  by_cases here : other = file
  · subst here
    simp [known]
  · simp [here, Ne.symm here]

/-- Files and groups agree on who belongs where. -/
def FilesAgree (c : Collection) : Prop := Agreement c.groupOfFile c.filesAt

theorem FilesAgree.congr (h : c.FilesAgree) (groupOf : c'.groupOfFile = c.groupOfFile)
    (filesAt : c'.filesAt = c.filesAt) : c'.FilesAgree := by
  rw [FilesAgree, groupOf, filesAt]
  exact h

theorem FilesAgree.connect (h : c.FilesAgree) {group : Nat} {link : GroupLink}
    (known : group < c.groups.length) (within : link.Within c) (path : Text) (line : Nat) :
    (c.connect group link path line).FilesAgree := by
  cases link with
  | parentOf child =>
    rw [Collection.connect]
    obtain same | ⟨found, same⟩ | ⟨-, -, same⟩ := joinGroup_cases c child group path line
    · rw [same]
      exact h
    · rw [same]
      exact h.congr rfl rfl
    · rw [same]
      have given : (c.modifyGroup child fun g => { g with parent := some group }).filesAt =
          c.filesAt := by
        refine filesAt_modifyGroup ?_ child
        exact fun _ => rfl
      exact h.congr rfl ((filesAt_modifyGroup (insert_files _) group).trans given)
  | member symbol => exact h.congr rfl (filesAt_modifyGroup (insert_files _) group)
  | file file =>
    exact Agreement.join h (groupOfFile_joinFile within group) (filesAt_joinFile known file)

theorem Change.filesAgree (step : Change c c') (h : c.FilesAgree) : c'.FilesAgree := by
  cases step with
  | file path includes doc => exact h.congr (funext (bind_getElem?_append c.files rfl)) rfl
  | group name title new => exact h.congr rfl (funext (getD_getElem?_append c.groups rfl))
  | retitle group title =>
    refine h.congr rfl (filesAt_modifyGroup (fun g => ?_) group)
    split <;> rfl
  | document group doc =>
    refine h.congr rfl (filesAt_modifyGroup ?_ group)
    exact fun _ => rfl
  | connect group link path line known within => exact h.connect known within path line
  | _ => exact h.congr rfl rfl

theorem Changes.filesAgree (h : Changes c c') (hc : c.FilesAgree) : c'.FilesAgree := by
  induction h with
  | refl => exact hc
  | tail _ step ih => exact step.filesAgree ih

end

theorem ofContributions_filesAgree (contributions : List Contribution) :
    (ofContributions contributions).FilesAgree :=
  (ofContributions_changes contributions).filesAgree
    ⟨by simp [groupOfFile], by simp [filesAt]⟩

/-! ## The finished model -/

section

variable {c : Collection}

theorem owner?_lt (counted : CountedBy Symbol.id c.symbols) {name : Text} {owner : Nat}
    (h : owner? c.symbols name = some owner) : owner < c.symbols.length := by
  obtain ⟨s, chosen, rfl⟩ := Option.map_eq_some_iff.mp h
  have named : s ∈ c.symbols.filter fun s => s.name == name := by
    rcases Option.or_eq_some_iff.mp chosen with type | ⟨-, first⟩
    · exact List.mem_of_find?_eq_some type
    · exact List.mem_of_mem_head? first
  exact counted.lt_of_mem (List.mem_of_mem_filter named)

theorem withOwners_within {n : Extent} (room : c.extent.Le n)
    (counted : CountedBy Symbol.id c.symbols) (h : ∀ s ∈ c.symbols, s.Within n) :
    ∀ s ∈ c.withOwners, s.Within n := by
  intro s hs
  obtain ⟨i, hi⟩ := List.mem_iff_getElem?.mp hs
  obtain ⟨before, identity, at_, -, rfl⟩ := List.getElem?_zipWith_eq_some.mp hi
  refine { h before (List.mem_of_getElem? at_) with owner := fun o ho => ?_ }
  obtain ⟨name, -, chosen⟩ := Option.bind_eq_some_iff.mp ho
  exact (owner?_lt counted chosen).trans_le room.symbols

theorem foldl_note_nodup (l seen : List Nat) (h : seen.Nodup) :
    (l.foldl Outline.note seen).Nodup := by
  induction l generalizing seen with
  | nil => exact h
  | cons a rest ih => exact ih _ (nodup_note h a)

theorem mem_foldl_note {l seen : List Nat} {a : Nat} :
    a ∈ l.foldl Outline.note seen ↔ a ∈ seen ∨ a ∈ l := by
  induction l generalizing seen with
  | nil => simp
  | cons b rest ih => rw [List.foldl_cons, ih, mem_note, List.mem_cons, or_assoc]

theorem byName_nodup (c : Collection) (groups : List Nat) : (c.byName groups).Nodup :=
  List.nodup_mergeSort.mpr (foldl_note_nodup groups [] List.nodup_nil)

theorem mem_byName {groups : List Nat} {g : Nat} : g ∈ c.byName groups ↔ g ∈ groups := by
  have once : g ∈ groups.foldl Outline.note [] ↔ g ∈ groups := by simp [mem_foldl_note]
  exact List.mem_mergeSort.trans once

theorem mem_includeEdges {files : List File} {i j : Nat} :
    (i, j) ∈ includeEdges files ↔ i ≠ j ∧ ∃ f ∈ files, f.group = some i ∧
      ∃ path ∈ f.includes, ∃ target, includedFile? files path = some target ∧
        target.group = some j := by
  have edge (source target : Nat) :
      (if target = source then none else some (source, target)) = some (i, j) ↔
        i ≠ j ∧ source = i ∧ target = j := by
    split
    next same => simp only [reduceCtorEq, false_iff]; omega
    next other => simp only [Option.some.injEq, Prod.mk.injEq]; omega
  unfold includeEdges
  rw [List.mem_flatMap]
  constructor
  · rintro ⟨f, hf, found⟩
    cases group : f.group with
    | none => simp [group] at found
    | some source =>
      simp only [group, List.mem_filterMap, Option.bind_eq_some_iff, edge] at found
      obtain ⟨path, hpath, _, ⟨target, isFile, target_group⟩, other, rfl, rfl⟩ := found
      exact ⟨other, f, hf, group, path, hpath, target, isFile, target_group⟩
  · rintro ⟨other, f, hf, group, path, hpath, target, isFile, target_group⟩
    refine ⟨f, hf, ?_⟩
    simp only [group, List.mem_filterMap, Option.bind_eq_some_iff, edge, true_and]
    exact ⟨path, hpath, j, ⟨target, isFile, target_group⟩, other, rfl⟩

/-- An include relation is between the groups of two files. -/
theorem includeEdges_lt {n : Extent} {files : List File} (h : ∀ f ∈ files, f.Within n)
    {e : Nat × Nat} (he : e ∈ includeEdges files) : e.1 < n.groups ∧ e.2 < n.groups := by
  obtain ⟨-, f, hf, source, path, -, target, isFile, group⟩ := mem_includeEdges.mp he
  have known : target ∈ files := by
    rcases Option.or_eq_some_iff.mp isFile with byPath | ⟨-, byFileName⟩
    · exact List.mem_of_find?_eq_some byPath
    · exact List.mem_of_find?_eq_some byFileName
  exact ⟨h f hf e.1 source, h target known e.2 group⟩

theorem withIncludes_within {n : Extent} {edges : List (Nat × Nat)}
    (h : ∀ e ∈ edges, e.1 < n.groups ∧ e.2 < n.groups) {g : Group} (hg : g.Within n) :
    (c.withIncludes edges g).Within n := by
  refine { hg with
    includes := ⟨byName_nodup c _, fun i hi => ?_⟩
    includedBy := ⟨byName_nodup c _, fun i hi => ?_⟩ }
  all_goals
    obtain ⟨e, he, rfl⟩ := List.mem_map.mp (mem_byName.mp hi)
  · exact (h e (List.mem_of_mem_filter he)).2
  · exact (h e (List.mem_of_mem_filter he)).1

theorem hideUndocumented_within {n : Extent} (symbols : List Symbol) {g : Group}
    (hg : g.Within n) : (hideUndocumented symbols g).Within n :=
  { hg with
    members := ⟨hg.members.1.filter _, fun x hx => hg.members.2 x (List.mem_of_mem_filter hx)⟩ }

/-- Finishing a group sets its include relations and may leave out members. -/
theorem toModel_groups_map {α : Type} (options : Options) (c : Collection) (view : Group → α)
    (kept : ∀ (g : Group) members includes includedBy,
      view { g with members, includes, includedBy } = view g) :
    (c.toModel options).groups.map view = c.groups.map view := by
  simp only [toModel, List.map_map]
  refine List.map_congr_left fun g _ => ?_
  dsimp only [Function.comp]
  split <;> exact kept g _ _ _

theorem toModel_groups_within {n : Extent} (options : Options) (h : c.Within n) :
    ∀ g ∈ (c.toModel options).groups, g.Within n := by
  intro g hg
  obtain ⟨before, known, rfl⟩ := List.mem_map.mp hg
  have edges : ∀ e ∈ includeEdges c.files, e.1 < n.groups ∧ e.2 < n.groups :=
    fun e => includeEdges_lt h.files
  refine withIncludes_within edges ?_
  split
  · exact hideUndocumented_within _ (h.groups before known)
  · exact h.groups before known

theorem toModel_extent (options : Options) (aligned : c.identities.length = c.symbols.length) :
    (c.toModel options).extent = c.extent := by
  simp [Model.extent, extent, toModel, withOwners, aligned]

end

end Collection

namespace Model

theorem ofContributions_integral (options : Options) (contributions : List Contribution) :
    (ofContributions options contributions).Integral := by
  have numbered := ofContributions_numbered options contributions
  have collected := Collection.ofContributions_numbered contributions
  have coherent := (ofContributions_changes contributions).coherent empty_coherent
  have within := Collection.ofContributions_within contributions
  have agree := ofContributions_filesAgree contributions
  have serves := ofContributions_serves contributions
  unfold ofContributions at numbered ⊢
  generalize Collection.ofContributions contributions = c at *
  have extent := toModel_extent options coherent.identities
  have filesAt (i : Nat) :
      c.filesAt i = ((c.toModel options).groups[i]?.map Group.files).getD [] := by
    rw [Collection.filesAt, ← List.getElem?_map, ← List.getElem?_map,
      toModel_groups_map options c Group.files fun _ _ _ _ => rfl]
  refine
    { numbered, names := ?_, files := ?_, groups := ?_, symbols := ?_, roots := ?_, anchors := ?_,
      attached := ?_, placed := ?_ }
  · rw [toModel_groups_map options c Group.name fun _ _ _ _ => rfl, serves.names]
    exact serves.distinct
  · rw [extent]
    exact within.files
  · rw [extent]
    exact toModel_groups_within options within
  · rw [extent]
    exact withOwners_within ⟨le_rfl, le_rfl, le_rfl⟩ collected.symbols within.symbols
  · exact fun g hg => ((GroupForest.mem_roots numbered.groups g).mp hg).1
  · simp [toModel]
  · intro f hf i hi
    have group : c.groupOfFile f.id = some i := by
      rw [groupOfFile, collected.files.getElem?_of_mem hf]
      exact hi
    have listed := agree.listed f.id i group
    rw [filesAt] at listed
    cases at_ : (c.toModel options).groups[i]? with
    | none => simp [at_] at listed
    | some g => exact ⟨g, rfl, by simpa [at_] using listed⟩
  · intro g hg i hi
    have listed : i ∈ c.filesAt g.id := by
      rw [filesAt, numbered.groups.getElem?_of_mem hg]
      exact hi
    obtain ⟨j, hj⟩ := Option.isSome_iff_exists.mp (agree.placed i g.id listed)
    obtain ⟨f, at_, group⟩ := Option.bind_eq_some_iff.mp hj
    exact ⟨f, at_, group ▸ rfl⟩

/-! ## The resolved model -/

theorem has_of_mem_documented {m : Model} (numbered : m.Numbered) {owner : Target} {doc : Doc}
    (h : (owner, doc) ∈ m.documented) : m.Has owner := by
  rw [mem_documented numbered] at h
  cases owner with
  | anchor i => simp [ownDoc?] at h
  | _ =>
    obtain ⟨_, at_, -⟩ := Option.bind_eq_some_iff.mp h
    exact (List.getElem?_eq_some_iff.mp at_).1

/-- Anchors belong to what is documented. -/
theorem has_owner_of_mem_indexed {m : Model} (numbered : m.Numbered) {a : Anchor}
    (h : a ∈ m.indexed.anchors) : m.indexed.Has a.owner := by
  have first : a ∈ (splitAnchors [] m.clear.anchorNodes).1 := h
  rw [anchorNodes_clear] at first
  have found := List.mem_of_find?_eq_some (splitAnchors_fst_first m.anchorNodes [] a first).2
  obtain ⟨⟨owner, doc⟩, documented, inside⟩ := List.mem_flatMap.mp found
  obtain rfl : owner = a.owner := by
    obtain ⟨n, -, named⟩ := List.mem_filterMap.mp inside
    cases n <;> simp at named
    rw [← named]
  exact has_of_mem_documented (m := m.indexed) (indexed_numbered numbered) documented

namespace Integral

variable {m : Model} (h : m.Integral)

include h

theorem mapDocs (g : Target → Doc → Doc) : (m.mapDocs g).Integral := by
  have extent : (m.mapDocs g).extent = m.extent := by simp [Model.extent, Model.mapDocs]
  refine
    { numbered := mapDocs_numbered h.numbered g, names := ?_, files := ?_, groups := ?_,
      symbols := ?_, roots := ?_, anchors := ?_, attached := ?_, placed := ?_ }
  · simpa [Model.mapDocs, Function.comp_def] using h.names
  · rw [extent]
    exact List.forall_mem_map.mpr fun f hf => h.files f hf
  · rw [extent]
    exact List.forall_mem_map.mpr fun g hg => { h.groups g hg with }
  · rw [extent]
    exact List.forall_mem_map.mpr fun s hs => { h.symbols s hs with }
  · simpa [Model.mapDocs] using h.roots
  · exact fun a ha => has_mapDocs.mpr (h.anchors a ha)
  · refine List.forall_mem_map.mpr fun f hf i hi => ?_
    obtain ⟨g, at_, listed⟩ := h.attached f hf i hi
    exact ⟨_, (List.getElem?_map ..).trans (congrArg _ at_), listed⟩
  · refine List.forall_mem_map.mpr fun g hg i hi => ?_
    obtain ⟨f, at_, group⟩ := h.placed g hg i hi
    exact ⟨_, (List.getElem?_map ..).trans (congrArg _ at_), group⟩

theorem indexed : m.indexed.Integral :=
  { h with
    numbered := indexed_numbered h.numbered
    anchors := fun _ ha => has_owner_of_mem_indexed h.numbered ha }

theorem resolved : m.resolved.Integral := by
  have resolution : m.resolve.1.Integral := by
    rw [resolve_eq h.numbered]
    exact h.indexed.mapDocs _
  have numbered := resolution.numbered
  exact { resolution with numbered := ⟨numbered.files, numbered.groups, numbered.symbols⟩ }

/-- Every member of a group has a name. -/
theorem map_memberName? {g : Group} (hg : g ∈ m.groups) :
    g.members.map m.memberName? = (m.memberNames g).map some := by
  have named : ∀ x ∈ g.members, (m.memberName? x).isSome := by
    intro x hx
    have within := (h.groups g hg).members.2 x hx
    cases x with
    | symbol i =>
      have known : i < m.symbols.length := within
      simpa [memberName?] using known
    | group i =>
      have known : i < m.groups.length := within
      simpa [memberName?] using known
  rw [memberNames, List.map_filterMap_some_eq_filter_map_isSome, List.filter_eq_self.mpr]
  simpa using named

/-- The owner of a symbol can be looked up. -/
theorem memberNames_eq {s : Symbol} (hs : s ∈ m.symbols) {o : Nat} (ho : o ∈ s.owner) :
    ∃ owner, m.symbols[o]? = some owner ∧ NameTable.memberNames m s =
      NameTable.separators.map fun sep => (owner.name ++ sep ++ s.name, .symbol s.id) := by
  have within : o < m.symbols.length := (h.symbols s hs).owner o ho
  have known : s.owner = some o := ho
  have at_ := List.getElem?_eq_getElem within
  exact ⟨m.symbols[o], at_, by simp [NameTable.memberNames, known, at_]⟩

end Integral

end Model

/-- In the model of a corpus everything that is referred to exists. So there is a name for every
member of a group, and every symbol that has an owner is listed with the name of the owner. -/
theorem corpus_integral (options : Options) (files : List SourceFile) {m : Model}
    (h : Model.ofSources? options files = some m) :
    m.Integral ∧
      (∀ g ∈ m.groups, g.members.map m.memberName? = (m.memberNames g).map some) ∧
      ∀ s ∈ m.symbols, ∀ o ∈ s.owner, ∃ owner, m.symbols[o]? = some owner ∧
        NameTable.memberNames m s =
          NameTable.separators.map fun sep => (owner.name ++ sep ++ s.name, .symbol s.id) := by
  obtain ⟨contributions, -, rfl⟩ := Option.map_eq_some_iff.mp h
  have integral := (Model.ofContributions_integral options contributions).resolved
  exact ⟨integral, fun g hg => integral.map_memberName? hg,
    fun s hs o ho => integral.memberNames_eq hs ho⟩

/-- A file that puts a structure with a field into a group which only the file that it includes
defines. -/
def laterGroup : List SourceFile :=
  [⟨"pin.h".toList, ["port.h".toList],
    [⟨none, some "/** @defgroup pin Pins\n * @ingroup port */".toList, none, 1⟩,
      ⟨none, some "/** @file\n * @ingroup pin */".toList, none, 4⟩,
      ⟨some ⟨.struct, "Pin".toList, "struct Pin".toList, none⟩,
        some "/** @anchor wiring\n * @ingroup port */".toList, none, 7⟩,
      ⟨some ⟨.field, "level".toList, "int level".toList, some "Pin".toList⟩, none, none, 10⟩]⟩,
   ⟨"port.h".toList, [],
    [⟨none, some "/** @file\n * @ingroup port */".toList, none, 1⟩,
      ⟨none, some "/** @defgroup port Ports */".toList, none, 4⟩]⟩]

theorem laterGroup_integral :
    ∃ m, Model.ofSources? {} laterGroup = some m ∧ m.Integral ∧
      m.groups.map (fun g => (g.parent, g.members, g.includes)) =
        [(some 1, [], [1]), (none, [.group 0, .symbol 0], [])] ∧
      m.symbols.map Symbol.owner = [none, some 0] ∧
      m.anchors.map Anchor.owner = [.symbol 0] := by
  have read : (Model.ofSources? {} laterGroup).any (fun m =>
      m.groups.map (fun g => (g.parent, g.members, g.includes)) =
          [(some 1, [], [1]), (none, [.group 0, .symbol 0], [])] ∧
        m.symbols.map Symbol.owner = [none, some 0] ∧
        m.anchors.map Anchor.owner = [.symbol 0]) = true := by
    decide +kernel
  obtain ⟨m, h, parts⟩ := (Option.any_eq_true _ _).mp read
  exact ⟨m, h, (corpus_integral {} laterGroup h).1, of_decide_eq_true parts⟩

end DocComment
