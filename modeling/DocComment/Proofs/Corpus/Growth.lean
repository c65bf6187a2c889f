import DocComment.Proofs.Corpus.Membership

/-!
# Files that come later

More files add to what a corpus is known to hold and take nothing of it back. Each field has its own
rule: it is fixed when its owner comes into being, or stays once it is set, or is a list that grows
at its end. Every elementary change of a collection keeps to these rules.
-/

set_option autoImplicit false

namespace DocComment

/-- What is set stays as it is. -/
def Stays {α : Type} (o o' : Option α) : Prop := ∀ a, o = some a → o' = some a

theorem Stays.rfl {α : Type} {o : Option α} : Stays o o := fun _ h => h

theorem Stays.trans {α : Type} {o o' o'' : Option α} (h : Stays o o') (h' : Stays o' o'') :
    Stays o o'' :=
  fun a ha => h' a (h a ha)

theorem Stays.or {α : Type} (o o' : Option α) : Stays o (o.or o') := by
  rintro a rfl
  rfl

structure Symbol.Extends (s s' : Symbol) : Prop where
  id : s'.id = s.id
  kind : s'.kind = s.kind
  name : s'.name = s.name
  signature : s'.signature = s.signature
  file : s'.file = s.file
  redeclaredIn : s.redeclaredIn <+: s'.redeclaredIn
  group : Stays s.group s'.group
  doc : Stays s.doc s'.doc

structure Group.Extends (g g' : Group) : Prop where
  id : g'.id = g.id
  name : g'.name = g.name
  title : g.title ≠ [] → g'.title = g.title
  parent : Stays g.parent g'.parent
  members : g.members <+: g'.members
  files : g.files <+: g'.files
  brief : Stays (g.doc.bind Sections.brief) (g'.doc.bind Sections.brief)

structure File.Extends (f f' : File) : Prop where
  id : f'.id = f.id
  path : f'.path = f.path
  doc : f'.doc = f.doc
  group : Stays f.group f'.group

theorem Symbol.Extends.rfl {s : Symbol} : s.Extends s :=
  ⟨Eq.refl _, Eq.refl _, Eq.refl _, Eq.refl _, Eq.refl _, List.prefix_rfl, .rfl, .rfl⟩

theorem Symbol.Extends.trans {s s' s'' : Symbol} (h : s.Extends s') (h' : s'.Extends s'') :
    s.Extends s'' where
  id := h'.id.trans h.id
  kind := h'.kind.trans h.kind
  name := h'.name.trans h.name
  signature := h'.signature.trans h.signature
  file := h'.file.trans h.file
  redeclaredIn := h.redeclaredIn.trans h'.redeclaredIn
  group := h.group.trans h'.group
  doc := h.doc.trans h'.doc

theorem Group.Extends.rfl {g : Group} : g.Extends g :=
  ⟨Eq.refl _, Eq.refl _, fun _ => Eq.refl _, .rfl, List.prefix_rfl, List.prefix_rfl, .rfl⟩

theorem Group.Extends.trans {g g' g'' : Group} (h : g.Extends g') (h' : g'.Extends g'') :
    g.Extends g'' where
  id := h'.id.trans h.id
  name := h'.name.trans h.name
  title set := by
    have kept := h.title set
    rw [h'.title (kept ▸ set), kept]
  parent := h.parent.trans h'.parent
  members := h.members.trans h'.members
  files := h.files.trans h'.files
  brief := h.brief.trans h'.brief

theorem File.Extends.rfl {f : File} : f.Extends f := ⟨Eq.refl _, Eq.refl _, Eq.refl _, .rfl⟩

theorem File.Extends.trans {f f' f'' : File} (h : f.Extends f') (h' : f'.Extends f'') :
    f.Extends f'' :=
  ⟨h'.id.trans h.id, h'.path.trans h.path, h'.doc.trans h.doc, h.group.trans h'.group⟩

/-! ## Tables -/

/-- What stands at a place of the first list is found again, at the same place of the second. -/
def Onward {α : Type} (R : α → α → Prop) (l l' : List α) : Prop :=
  ∀ (i : Nat) (a : α), l[i]? = some a → ∃ a', l'[i]? = some a' ∧ R a a'

section

variable {α : Type} {R : α → α → Prop} {l l' l'' : List α}

theorem Onward.rfl (refl : ∀ a, R a a) : Onward R l l := fun _ a ha => ⟨a, ha, refl a⟩

theorem Onward.trans (trans : ∀ {a b c}, R a b → R b c → R a c) (h : Onward R l l')
    (h' : Onward R l' l'') : Onward R l l'' := by
  intro i a ha
  obtain ⟨b, hb, ab⟩ := h i a ha
  obtain ⟨c, hc, bc⟩ := h' i b hb
  exact ⟨c, hc, trans ab bc⟩

theorem Onward.append (refl : ∀ a, R a a) (more : List α) : Onward R l (l ++ more) := by
  intro i a ha
  obtain ⟨hi, -⟩ := List.getElem?_eq_some_iff.mp ha
  exact ⟨a, by rw [List.getElem?_append_left hi, ha], refl a⟩

theorem Onward.modify (refl : ∀ a, R a a) {f : α → α} {i : Nat}
    (hf : ∀ a, l[i]? = some a → R a (f a)) : Onward R l (l.modify i f) := by
  intro j a ha
  rw [List.getElem?_modify, ha]
  by_cases here : i = j
  · subst here
    exact ⟨f a, by simp, hf a ha⟩
  · exact ⟨a, by simp [here], refl a⟩

theorem Onward.map {f f' : α → α} (hf : ∀ {a b}, R a b → R (f a) (f' b)) (h : Onward R l l') :
    Onward R (l.map f) (l'.map f') := by
  intro i a ha
  rw [List.getElem?_map] at ha
  obtain ⟨b, hb, rfl⟩ := Option.map_eq_some_iff.mp ha
  obtain ⟨b', hb', kept⟩ := h i b hb
  exact ⟨f' b', by rw [List.getElem?_map, hb', Option.map_some], hf kept⟩

end

/-! ## Single fields -/

theorem Group.insert_extends (member : Member) (g : Group) : g.Extends (g.insert member) := by
  unfold Group.insert
  split
  · exact .rfl
  · exact { Group.Extends.rfl with members := List.prefix_append _ _ }

theorem Collection.redeclare_extends (file : Nat) (doc : Option Doc) (s : Symbol) :
    s.Extends (redeclare file doc s) where
  id := Eq.refl _
  kind := Eq.refl _
  name := Eq.refl _
  signature := Eq.refl _
  file := Eq.refl _
  redeclaredIn := by
    unfold redeclare
    dsimp only
    split
    · exact List.prefix_rfl
    · exact List.prefix_append _ _
  group := .rfl
  doc := .or s.doc doc

/-- A brief description is set once; documentation that is added to it goes to the detail. -/
theorem Sections.brief_append {α : Type} (doc other : Sections α) :
    Stays doc.brief (doc.append other).brief :=
  .or doc.brief other.brief

/-! ## Changes -/

namespace Collection

structure Extends (c c' : Collection) : Prop where
  files : Onward File.Extends c.files c'.files
  groups : Onward Group.Extends c.groups c'.groups
  symbols : Onward Symbol.Extends c.symbols c'.symbols

theorem Extends.rfl {c : Collection} : c.Extends c :=
  ⟨.rfl fun _ => .rfl, .rfl fun _ => .rfl, .rfl fun _ => .rfl⟩

theorem Extends.trans {a b c : Collection} (h : a.Extends b) (h' : b.Extends c) : a.Extends c :=
  ⟨h.files.trans File.Extends.trans h'.files, h.groups.trans Group.Extends.trans h'.groups,
    h.symbols.trans Symbol.Extends.trans h'.symbols⟩

variable (c : Collection)

theorem modifyGroup_extends {group : Nat} {f : Group → Group}
    (hf : ∀ g, c.groups[group]? = some g → g.Extends (f g)) :
    c.Extends (c.modifyGroup group f) :=
  { Extends.rfl with groups := .modify (fun _ => .rfl) hf }

theorem adopt_extends {child parent : Nat} (free : c.parent? child = none) :
    c.Extends (c.adopt child parent) := by
  have given : c.Extends (c.modifyGroup child fun g => { g with parent := some parent }) := by
    refine c.modifyGroup_extends fun g hg => { Group.Extends.rfl with parent := fun p hp => ?_ }
    have orphan : g.parent = none := by simpa [parent?, hg] using free
    simp [orphan] at hp
  exact given.trans (modifyGroup_extends _ fun g _ => g.insert_extends (.group child))

theorem connect_extends (group : Nat) (link : GroupLink) (path : Text) (line : Nat) :
    c.Extends (c.connect group link path line) := by
  cases link with
  | parentOf child =>
    rw [connect]
    obtain same | ⟨found, same⟩ | ⟨-, free, same⟩ := joinGroup_cases c child group path line
    · rw [same]
      exact .rfl
    · rw [same]
      exact { Extends.rfl with }
    · rw [same]
      exact c.adopt_extends free
  | member symbol =>
    have listed : c.Extends (c.modifyGroup group (Group.insert (.symbol symbol))) :=
      c.modifyGroup_extends fun g _ => g.insert_extends (.symbol symbol)
    refine { listed with symbols := .modify (fun _ => .rfl) fun s _ => ?_ }
    exact { Symbol.Extends.rfl with group := .or s.group (some group) }
  | file file =>
    have listed : c.Extends (c.modifyGroup group fun g =>
        if g.files.contains file then g else { g with files := g.files ++ [file] }) := by
      refine c.modifyGroup_extends fun g _ => ?_
      split
      · exact .rfl
      · exact { Group.Extends.rfl with files := List.prefix_append _ _ }
    refine { listed with files := .modify (fun _ => .rfl) fun f _ => ?_ }
    exact { File.Extends.rfl with group := .or f.group (some group) }

theorem Change.extends {c c' : Collection} (step : Change c c') : c.Extends c' := by
  cases step with
  | file path includes doc =>
    exact { Extends.rfl with files := .append (fun _ => .rfl) _ }
  | group name title new =>
    exact { Extends.rfl with groups := .append (fun _ => .rfl) _ }
  | retitle group title =>
    refine c.modifyGroup_extends fun g _ => ?_
    split
    next untitled =>
      refine { Group.Extends.rfl with title := fun set => absurd ?_ set }
      simpa using untitled
    next => exact .rfl
  | document group doc =>
    refine c.modifyGroup_extends fun g _ => { Group.Extends.rfl with brief := ?_ }
    cases known : g.doc with
    | none =>
      rintro b ⟨⟩
    | some kept => exact kept.brief_append doc
  | declare decl doc file known new =>
    exact { Extends.rfl with symbols := .append (fun _ => .rfl) _ }
  | redeclare index file doc known =>
    exact { Extends.rfl with
      symbols := .modify (fun _ => .rfl) fun s _ => redeclare_extends file doc s }
  | connect group link path line known within => exact c.connect_extends group link path line
  | _ => exact { Extends.rfl with }

theorem Changes.extends {c c' : Collection} (h : Changes c c') : c.Extends c' := by
  induction h with
  | refl => exact .rfl
  | tail _ step ih => exact ih.trans step.extends

/-! ## The finished model -/

/-- Finding the owners of the symbols changes nothing that has to stay. -/
theorem withOwners_onward {c c' : Collection} (hc' : c'.Coherent)
    (h : Onward Symbol.Extends c.symbols c'.symbols) :
    Onward Symbol.Extends c.withOwners c'.withOwners := by
  intro i s hs
  obtain ⟨first, identity, at_, -, rfl⟩ := List.getElem?_zipWith_eq_some.mp hs
  obtain ⟨second, at', extends_⟩ := h i first at_
  have known : i < c'.identities.length := by
    rw [hc'.identities]
    exact (List.getElem?_eq_some_iff.mp at').1
  refine ⟨_, List.getElem?_zipWith_eq_some.mpr
    ⟨second, _, at', List.getElem?_eq_getElem known, rfl⟩, ?_⟩
  exact { extends_ with }

theorem toModel_onward {options : Options} (shown : options.hideUndocumented = false)
    {c c' : Collection} (hc' : c'.Coherent) (h : c.Extends c') :
    Onward Symbol.Extends (c.toModel options).symbols (c'.toModel options).symbols ∧
      Onward Group.Extends (c.toModel options).groups (c'.toModel options).groups ∧
      Onward File.Extends (c.toModel options).files (c'.toModel options).files := by
  refine ⟨withOwners_onward hc' h.symbols, ?_, h.files⟩
  simp only [toModel, shown, Bool.false_eq_true, if_false]
  exact h.groups.map fun kept => { kept with }

end Collection

open Collection

/-- Files that are appended to a corpus add to its symbols, groups and files and leave alone what
the files before them have established. -/
theorem later_files_extend (options : Options) (before later : List Contribution)
    (shown : options.hideUndocumented = false) :
    let m := Model.ofContributions options before
    let m' := Model.ofContributions options (before ++ later)
    Onward Symbol.Extends m.symbols m'.symbols ∧ Onward Group.Extends m.groups m'.groups ∧
      Onward File.Extends m.files m'.files := by
  intro m m'
  have first := (ofContributions_changes before).coherent empty_coherent
  have more : Changes (ofContributions before) (ofContributions (before ++ later)) := by
    rw [ofContributions, ofContributions, List.foldl_append]
    exact adds_changes later _ first
  exact toModel_onward shown (more.coherent first) more.extends

/-- A file that defines a group without a title and asks for a place in another one. -/
def opening : List Contribution :=
  [⟨0, "a.h".toList, [], none,
    [.group .define ['G'] [] [] (some { brief := some (.text ['b']) }) 1, .openScope none,
      .declare ⟨.function, ['f'], ['f'], none⟩ none [] 2, .closeScope 3, .file [['L']]], []⟩]

/-- A file that defines the other group, reopens the first and declares its function again. -/
def reopening : List Contribution :=
  [⟨1, "b.h".toList, [], none,
    [.group .define ['L'] [] [] none 1,
      .group .extend ['G'] ['T'] [['L']] (some { brief := some (.text ['c']) }) 2,
      .declare ⟨.function, ['g'], ['g'], none⟩ none [['G']] 3,
      .declare ⟨.function, ['f'], ['f'], none⟩ (some {}) [['L']] 4], []⟩]

theorem reopened_extends : ({} : Options).hideUndocumented = false ∧
    ∃ g g', (Model.ofContributions {} opening).groups[0]? = some g ∧
      (Model.ofContributions {} (opening ++ reopening)).groups[0]? = some g' ∧ g.Extends g' ∧
        (g.title, g.parent, g.members) = ([], none, [.symbol 0]) ∧
          (g'.title, g'.parent, g'.members) = (['T'], some 1, [.symbol 0, .symbol 1]) := by
  obtain ⟨-, groups, -⟩ := later_files_extend {} opening reopening rfl
  obtain ⟨g', at', kept⟩ := groups 0 _ rfl
  refine ⟨rfl, _, g', rfl, at', kept, rfl, ?_⟩
  have grown : (Model.ofContributions {} (opening ++ reopening)).groups[0]?.map
      (fun g => (g.title, g.parent, g.members)) =
        some (['T'], some 1, [.symbol 0, .symbol 1]) := by
    decide
  simpa [at'] using grown

end DocComment
