import DocComment.Proofs.Corpus.Declarations
import DocComment.Proofs.Corpus.Integrity

/-!
# Names in order

All names of a model stand in one list, and a reference finds the first that matches. So a name in
one source hides the same name in every later source, and within a source the number decides.
Members are named with their owner, which is found by name as well: a type comes before any other
symbol.
-/

set_option autoImplicit false

namespace DocComment

/-- Where names come from. -/
inductive NameSource where
  | anchor
  | group
  | symbol
  /-- The name of a symbol with that of its owner. -/
  | member
  | title
  | path
  | fileName
  deriving DecidableEq

namespace NameSource

/-- The sources, those that count first in front. -/
def inOrder : List NameSource := [anchor, group, symbol, member, title, path, fileName]

/-- What is named at place `i` of a source. -/
def target : NameSource → Nat → Target
  | anchor, i => .anchor i
  | group, i | title, i => .group i
  | symbol, i | member, i => .symbol i
  | path, i | fileName, i => .file i

/-- The places of a source at which something has a name. -/
def bearers (m : Model) (name : Text) : NameSource → Set Nat
  | anchor => placesOf (fun a => a.name = name) m.anchors
  | group => placesOf (fun g => g.name = name) m.groups
  | symbol => placesOf (fun s => s.name = name) m.symbols
  | member => placesOf (fun s => ∃ o owner, s.owner = some o ∧ m.symbols[o]? = some owner ∧
      ∃ sep ∈ ["::".toList, ".".toList, "#".toList], owner.name ++ sep ++ s.name = name) m.symbols
  | title => placesOf (fun g => g.title ≠ [] ∧ g.title = name) m.groups
  | path => placesOf (fun f => f.path = name) m.files
  | fileName => placesOf (fun f => Path.fileName? f.path = some name) m.files

end NameSource

/-- Whether a name stands for `t`: no earlier source has the name, and `t` is the first in its
source that has it. -/
def Model.Names (m : Model) (name : Text) (t : Target) : Prop :=
  ∃ before source after i, NameSource.inOrder = before ++ source :: after ∧
    (∀ earlier ∈ before, earlier.bearers m name = ∅) ∧
      IsLeast (source.bearers m name) i ∧ source.target i = t

/-! ## One source -/

/-- Whether a search finds what is at the first of some places. -/
structure FindsFirst (places : Set Nat) (target : Nat → Target) (found : Option Target) : Prop where
  some : ∀ t, found = some t ↔ ∃ i, IsLeast places i ∧ target i = t
  none : found = none ↔ places = ∅

section

variable {α : Type} {l : List α} {name : Text}

theorem lookup_flatMap_map (keys : α → List Text) (target : α → Target) :
    (l.flatMap fun a => (keys a).map (·, target a)).lookup name =
      (l.find? fun a => (keys a).contains name).map target := by
  have one (names : List Text) (t : Target) :
      (names.map (·, t)).lookup name = if names.contains name then some t else none := by
    induction names with
    | nil => rfl
    | cons first rest ih =>
      rw [List.map_cons, List.lookup_cons, ih, List.contains_cons]
      cases name == first <;> rfl
  induction l with
  | nil => rfl
  | cons a rest ih =>
    rw [List.flatMap_cons, List.lookup_append, one, ih, List.find?_cons]
    cases (keys a).contains name <;> rfl

theorem lookup_findsFirst {number : α → Nat} {P : α → Prop} {keys : α → List Text}
    (counted : CountedBy number l) (target : Nat → Target) (named : ∀ a, name ∈ keys a ↔ P a) :
    FindsFirst (placesOf P l) target
      ((l.flatMap fun a => (keys a).map (·, target (number a))).lookup name) := by
  have names (a : α) : (keys a).contains name = true ↔ P a :=
    List.contains_iff_mem.trans (named a)
  rw [lookup_flatMap_map keys fun a => target (number a)]
  refine ⟨fun t => ?_, ?_⟩
  · simp only [Option.map_eq_some_iff, find?_eq_some_iff_isLeast names]
    constructor
    · rintro ⟨a, ⟨i, at_, least⟩, rfl⟩
      exact ⟨i, least, by rw [counted.getElem?_eq at_]⟩
    · rintro ⟨i, least, rfl⟩
      obtain ⟨a, at_, -⟩ := least.1
      exact ⟨a, ⟨i, at_, least⟩, by rw [counted.getElem?_eq at_]⟩
  · rw [Option.map_eq_none_iff, find?_eq_none_iff_places names]

end

namespace NameTable

/-- The names that a source has, with what they stand for. -/
def entries (m : Model) : NameSource → List (Text × Target)
  | .anchor => m.anchors.mapIdx fun i a => (a.name, .anchor i)
  | .group => m.groups.map fun g => (g.name, .group g.id)
  | .symbol => m.symbols.map fun s => (s.name, .symbol s.id)
  | .member => m.symbols.flatMap (memberNames m)
  | .title => (m.groups.filter fun g => !g.title.isEmpty).map fun g => (g.title, .group g.id)
  | .path => m.files.map fun f => (f.path, .file f.id)
  | .fileName => m.files.filterMap fun f => (Path.fileName? f.path).map (·, .file f.id)

theorem namesOf_eq (m : Model) : namesOf m = NameSource.inOrder.flatMap (entries m) := by
  simp [namesOf, NameSource.inOrder, entries]

/-- The names of a symbol that include its owner, as they are written. -/
def ownedNames (m : Model) (s : Symbol) : List Text :=
  (s.owner.bind fun i => m.symbols[i]?).toList.flatMap fun owner =>
    separators.map fun sep => owner.name ++ sep ++ s.name

theorem memberNames_eq_map (m : Model) (s : Symbol) :
    memberNames m s = (ownedNames m s).map (·, .symbol s.id) := by
  unfold memberNames ownedNames
  cases s.owner.bind fun i => m.symbols[i]? with
  | none => rfl
  | some owner => simp

theorem lookup_entries {m : Model} (numbered : m.Numbered) (name : Text) (source : NameSource) :
    FindsFirst (source.bearers m name) source.target ((entries m source).lookup name) := by
  cases source with
  | anchor =>
    have counted : CountedBy Prod.snd m.anchors.zipIdx := by
      simp [CountedBy, List.zipIdx_map_snd, List.range_eq_range']
    have flat : entries m .anchor =
        m.anchors.zipIdx.flatMap fun e => [e.1.name].map (·, Target.anchor e.2) := by
      rw [entries, List.mapIdx_eq_zipIdx_map]
      exact List.map_eq_flatMap
    have places : NameSource.anchor.bearers m name =
        placesOf (fun e => e.1.name = name) m.anchors.zipIdx := by
      have whole :=
        placesOf_map (P := fun a : Anchor => a.name = name) (l := m.anchors.zipIdx) Prod.fst
      rwa [List.zipIdx_map_fst] at whole
    rw [flat, places]
    exact lookup_findsFirst counted .anchor (by simp [eq_comm])
  | group =>
    have flat : entries m .group = m.groups.flatMap fun g => [g.name].map (·, .group g.id) :=
      List.map_eq_flatMap
    rw [flat]
    exact lookup_findsFirst numbered.groups .group (by simp [eq_comm])
  | symbol =>
    have flat : entries m .symbol = m.symbols.flatMap fun s => [s.name].map (·, .symbol s.id) :=
      List.map_eq_flatMap
    rw [flat]
    exact lookup_findsFirst numbered.symbols .symbol (by simp [eq_comm])
  | member =>
    have flat : entries m .member =
        m.symbols.flatMap fun s => (ownedNames m s).map (·, .symbol s.id) :=
      congrArg m.symbols.flatMap (funext (memberNames_eq_map m))
    rw [flat]
    refine lookup_findsFirst numbered.symbols .symbol fun s => ?_
    simp only [ownedNames, List.mem_flatMap, Option.mem_toList, Option.bind_eq_some_iff,
      List.mem_map]
    constructor
    · rintro ⟨owner, ⟨o, owned, at_⟩, written⟩
      exact ⟨o, owner, owned, at_, written⟩
    · rintro ⟨o, owner, owned, at_, written⟩
      exact ⟨owner, ⟨o, owned, at_⟩, written⟩
  | title =>
    have flat : entries m .title = m.groups.flatMap fun g =>
        (if g.title.isEmpty then [] else [g.title]).map (·, .group g.id) := by
      rw [entries]
      induction m.groups with
      | nil => rfl
      | cons g rest ih =>
        rw [List.flatMap_cons, ← ih, List.filter_cons]
        cases g.title.isEmpty <;> rfl
    rw [flat]
    refine lookup_findsFirst numbered.groups .group fun g => ?_
    cases g.title <;> simp [eq_comm]
  | path =>
    have flat : entries m .path = m.files.flatMap fun f => [f.path].map (·, .file f.id) :=
      List.map_eq_flatMap
    rw [flat]
    exact lookup_findsFirst numbered.files .file (by simp [eq_comm])
  | fileName =>
    have flat : entries m .fileName =
        m.files.flatMap fun f => (Path.fileName? f.path).toList.map (·, .file f.id) := by
      rw [entries, List.filterMap_eq_flatMap_toList]
      simp only [Option.toList_map]
    rw [flat]
    exact lookup_findsFirst numbered.files .file (by simp [eq_comm])

/-! ## All sources -/

theorem lookup_flatMap {sources : List NameSource} {m : Model} {name : Text} :
    (sources.flatMap (entries m)).lookup name =
      sources.findSome? fun source => (entries m source).lookup name := by
  induction sources with
  | nil => rfl
  | cons source rest ih =>
    rw [List.flatMap_cons, List.lookup_append, ih, List.findSome?_cons]
    cases (entries m source).lookup name <;> rfl

theorem lookup_namesOf_eq_some_iff {m : Model} (numbered : m.Numbered) {name : Text} {t : Target} :
    (namesOf m).lookup name = some t ↔ m.Names name t := by
  have search := lookup_entries numbered name
  rw [namesOf_eq, lookup_flatMap, List.findSome?_eq_some_iff]
  constructor
  · rintro ⟨before, source, after, order, found, missed⟩
    obtain ⟨i, least, at_⟩ := ((search source).some t).mp found
    exact ⟨before, source, after, i, order, fun e he => (search e).none.mp (missed e he),
      least, at_⟩
  · rintro ⟨before, source, after, i, order, missed, least, at_⟩
    exact ⟨before, source, after, order, ((search source).some t).mpr ⟨i, least, at_⟩,
      fun e he => (search e).none.mpr (missed e he)⟩

theorem lookup_namesOf_eq_none_iff {m : Model} (numbered : m.Numbered) {name : Text} :
    (namesOf m).lookup name = none ↔ ∀ source, NameSource.bearers m name source = ∅ := by
  have all (source : NameSource) : source ∈ NameSource.inOrder := by cases source <;> decide
  have search := lookup_entries numbered name
  rw [namesOf_eq, lookup_flatMap, List.findSome?_eq_none_iff]
  constructor
  · exact fun missed source => (search source).none.mp (missed source (all source))
  · exact fun missed source _ => (search source).none.mpr (missed source)

/-- What is written is trimmed, and one pair of parentheses behind it is left out. -/
theorem trim_eq_plainName (written : Text) :
    let name := plainName written
    Text.trim written = name ++ "()".toList ∨
      Text.trim written = name ∧ ¬"()".toList <:+ Text.trim written := by
  intro name
  cases cut : Text.dropSuffix? ['(', ')'] (Text.trim written) with
  | some body =>
    have same : name = body := by simp [name, plainName, cut]
    exact .inl (same ▸ Text.dropSuffix?_eq_some.mp cut)
  | none =>
    have same : name = Text.trim written := by simp [name, plainName, cut]
    refine .inr ⟨same.symm, ?_⟩
    rintro ⟨body, ends⟩
    have found := Text.dropSuffix?_eq_some.mpr ends.symm
    exact absurd (found.symm.trans cut) (by simp)

end NameTable

/-! ## Owners -/

/-- Whether symbol `o` is the owner that a name stands for: the first type with the name or, if
there is none, the first symbol with it. -/
def OwnerNamed (symbols : List Symbol) (name : Text) (o : Nat) : Prop :=
  FirstOr (fun s => s.kind ∈ [.struct, .union, .enum, .typedef] ∧ s.name = name)
    (fun s => s.name = name) symbols o

namespace Collection

theorem isType_iff {kind : SymbolKind} :
    kind.isType = true ↔ kind ∈ [.struct, .union, .enum, .typedef] := by
  cases kind <;> decide

theorem owner?_eq_some_iff {symbols : List Symbol} (counted : CountedBy Symbol.id symbols)
    {name : Text} {o : Nat} : owner? symbols name = some o ↔ OwnerNamed symbols name o := by
  have isOwner (s : Symbol) : decide ((s.name == name) = true ∧ s.kind.isType = true) = true ↔
      s.kind ∈ [.struct, .union, .enum, .typedef] ∧ s.name = name := by
    rw [decide_eq_true_iff, beq_iff_eq, isType_iff, and_comm]
  have isNamed (s : Symbol) : (s.name == name) = true ↔ s.name = name := beq_iff_eq
  unfold owner?
  dsimp only
  rw [List.find?_filter, List.head?_filter, Option.map_eq_some_iff]
  simp only [find?_or_eq_some_iff isOwner isNamed]
  constructor
  · rintro ⟨s, ⟨i, at_, first⟩, rfl⟩
    rwa [counted.getElem?_eq at_]
  · intro first
    obtain ⟨s, at_⟩ := first.exists_getElem?
    exact ⟨s, ⟨o, at_, first⟩, counted.getElem?_eq at_⟩

theorem ownerNamed_withOwners {c : Collection} (coherent : c.Coherent) {name : Text} {o : Nat} :
    OwnerNamed c.withOwners name o ↔ OwnerNamed c.symbols name o :=
  firstOr_congr (P := fun s : SymbolKind × Text =>
      s.1 ∈ [SymbolKind.struct, .union, .enum, .typedef] ∧ s.2 = name) (Q := fun s => s.2 = name)
    (withOwners_map (fun s => (s.kind, s.name)) (fun _ _ => rfl) coherent) o

/-- The owner of a symbol is what the name in its identity stands for. -/
theorem owner_withOwners {c : Collection} (coherent : c.Coherent)
    (counted : CountedBy Symbol.id c.symbols) {n : Nat} {s : Symbol}
    (h : c.withOwners[n]? = some s) :
    ∃ identity, c.identities[n]? = some identity ∧ ∀ o, s.owner = some o ↔
      ∃ name, identity.owner = some name ∧ OwnerNamed c.withOwners name o := by
  obtain ⟨before, identity, -, found, rfl⟩ := List.getElem?_zipWith_eq_some.mp h
  refine ⟨identity, found, fun o => Option.bind_eq_some_iff.trans ?_⟩
  simp only [owner?_eq_some_iff counted, ownerNamed_withOwners coherent]

/-- The identity of a symbol is that of its declarations. -/
theorem mem_declared_iff {contributions : List Contribution} {n : Nat} {identity : SymbolIdentity}
    (found : (ofContributions contributions).identities[n]? = some identity)
    (d : DeclarationSite) :
    (d, n) ∈ (declarations contributions).zip (numbers {} contributions) ↔
      d ∈ declarations contributions ∧ d.identity = identity := by
  have records := (ofContributions_records contributions).1
  rw [← records.number_eq_iff found d]
  simp [zip_numbers]

theorem exists_declared {contributions : List Contribution} {n : Nat} {identity : SymbolIdentity}
    (found : (ofContributions contributions).identities[n]? = some identity) :
    ∃ d ∈ declarations contributions, d.identity = identity := by
  have records := (ofContributions_records contributions).1
  have inside : n < (ofContributions contributions).ledger.symbols.length := by
    rw [← records.aligned]
    exact (List.getElem?_eq_some_iff.mp found).1
  obtain ⟨d, hd, number⟩ := List.mem_map.mp ((records.lt_length_iff n).mp inside)
  exact ⟨d, hd, (records.number_eq_iff found d).mp number⟩

end Collection

open Collection

/-- A reference finds the first thing that has its name, source by source and in each source by
number, and nothing exactly if nothing has the name. Whether a symbol has an owner, and which one,
follows in the same way from the name in its declarations. -/
theorem references_find_first (options : Options) (contributions : List Contribution)
    (anchors : List Anchor) :
    let m := { Model.ofContributions options contributions with anchors }
    let declared := (declarations contributions).zip (Collection.numbers {} contributions)
    (∀ written : Text,
      let name := NameTable.plainName written
      (Text.trim written = name ++ "()".toList ∨
        Text.trim written = name ∧ ¬"()".toList <:+ Text.trim written) ∧
      (∀ t, (NameTable.ofModel m).find? written = some t ↔ m.Names name t) ∧
      ((NameTable.ofModel m).find? written = none ↔
        ∀ source, NameSource.bearers m name source = ∅)) ∧
    ∀ (n : Nat) (s : Symbol), m.symbols[n]? = some s →
      (∃ d, (d, n) ∈ declared) ∧ ∀ d, (d, n) ∈ declared → ∀ o, s.owner = some o ↔
        ∃ name, d.decl.owner = some name ∧ OwnerNamed m.symbols name o := by
  intro m declared
  obtain ⟨files, groups, symbols⟩ := Model.ofContributions_numbered options contributions
  have numbered : m.Numbered := ⟨files, groups, symbols⟩
  have counted := (Collection.ofContributions_numbered contributions).symbols
  have coherent := (ofContributions_changes contributions).coherent empty_coherent
  refine ⟨fun written => ⟨NameTable.trim_eq_plainName written, fun t => ?_, ?_⟩, fun n s at_ => ?_⟩
  · exact NameTable.lookup_namesOf_eq_some_iff numbered
  · exact NameTable.lookup_namesOf_eq_none_iff numbered
  · obtain ⟨identity, found, owned⟩ := owner_withOwners coherent counted at_
    refine ⟨?_, fun d hd => ?_⟩
    · obtain ⟨d, site⟩ := exists_declared found
      exact ⟨d, (mem_declared_iff found d).mpr site⟩
    · obtain rfl := ((mem_declared_iff found d).mp hd).2
      exact owned

/-- The group hides the union that has its name, and the field hides the title of the group. -/
example :
    let symbol (id : Nat) (kind : SymbolKind) (name : String) (owner : Option Nat) : Symbol :=
      { id, kind, name := name.toList, signature := [], file := 0, owner }
    let m : Model :=
      { groups := [⟨0, "Lamp".toList, "dim".toList, none, [], [], none, [], []⟩]
        symbols := [symbol 0 .union "Lamp" none, symbol 1 .field "dim" (some 0)] }
    ["Lamp", " dim() ", "Lamp::dim", "Lamp.on"].map
        (fun written => (NameTable.ofModel m).find? written.toList) =
      [some (.group 0), some (.symbol 1), some (.symbol 1), none] := by
  decide +kernel

end DocComment
