import DocComment.Corpus.Collection
import Mathlib

/-!
# Elementary changes of a collection

Whatever the events of a file do to a collection, they do in steps of a few kinds. A property
that each kind of step keeps therefore holds at every point of a run. No order of the events is
assumed, and no event is assumed to make sense.
-/

set_option autoImplicit false

namespace DocComment

open Relation

/-- What is to be linked exists. -/
def GroupLink.Within (c : Collection) : GroupLink → Prop
  | .parentOf i => i < c.groups.length
  | .member i => i < c.symbols.length
  | .file i => i < c.files.length

namespace Collection

/-- What waits exists, and every symbol has its identity. -/
structure Coherent (c : Collection) : Prop where
  waiting : ∀ w ∈ c.waiting, w.link.Within c
  identities : c.identities.length = c.symbols.length

inductive Change : Collection → Collection → Prop where
  | report (c : Collection) (found : List Diagnostic) :
      Change c { c with diagnostics := c.diagnostics ++ found }
  | file (c : Collection) (path : Text) (includes : List Text) (doc : Option Doc) :
      Change c { c with files := c.files ++ [{ id := c.files.length, path, includes, doc }] }
  | group (c : Collection) (name title : Text) (new : c.groupIndex? name = none) :
      Change c { c with groups := c.groups ++ [{ id := c.groups.length, name, title }] }
  | retitle (c : Collection) (group : Nat) (title : Text) :
      Change c (c.modifyGroup group fun g => if g.title.isEmpty then { g with title } else g)
  | document (c : Collection) (group : Nat) (doc : Doc) : Change c (c.documentGroup group doc)
  | declare (c : Collection) (decl : Declaration) (doc : Option Doc) (file : Nat)
      (known : file < c.files.length) (new : decl.identity ∉ c.identities) :
      Change c { c with
        symbols := c.symbols ++
          [{ id := c.symbols.length, kind := decl.kind, name := decl.name,
             signature := decl.signature, file, doc }]
        identities := c.identities ++ [decl.identity] }
  | redeclare (c : Collection) (index file : Nat) (doc : Option Doc)
      (known : file < c.files.length) :
      Change c { c with symbols := c.symbols.modify index (redeclare file doc) }
  | wait (c : Collection) (w : WaitingLink) (unknown : c.groupIndex? w.group = none)
      (within : w.link.Within c) : Change c { c with waiting := c.waiting ++ [w] }
  | release (c : Collection) (name : Text) :
      Change c { c with waiting := c.waiting.filter fun w => w.group != name }
  | connect (c : Collection) (group : Nat) (link : GroupLink) (path : Text) (line : Nat)
      (known : group < c.groups.length) (within : link.Within c) :
      Change c (c.connect group link path line)

abbrev Changes : Collection → Collection → Prop := ReflTransGen Change

/-! ## Nothing gets lost -/

/-- No list of the collection becomes shorter. -/
structure Grows (c c' : Collection) : Prop where
  files : c.files.length ≤ c'.files.length
  groups : c.groups.length ≤ c'.groups.length
  symbols : c.symbols.length ≤ c'.symbols.length

theorem Grows.rfl {c : Collection} : Grows c c := ⟨le_rfl, le_rfl, le_rfl⟩

theorem Grows.trans {a b c : Collection} (h : Grows a b) (k : Grows b c) : Grows a c :=
  ⟨h.files.trans k.files, h.groups.trans k.groups, h.symbols.trans k.symbols⟩

@[simp] theorem length_modifyGroup (c : Collection) (group : Nat) (f : Group → Group) :
    (c.modifyGroup group f).groups.length = c.groups.length := by
  simp [modifyGroup]

/-- Puts `child` under `parent`, whatever there was before. -/
def adopt (c : Collection) (child parent : Nat) : Collection :=
  (c.modifyGroup child fun g => { g with parent := some parent }).modifyGroup parent
    (Group.insert (.group child))

/-- A request for a parent is dropped, or reported, or granted to a group without a parent that
is not above the one it asks for. -/
theorem joinGroup_cases (c : Collection) (child parent : Nat) (path : Text) (line : Nat) :
    c.joinGroup child parent path line = c ∨
      (∃ found, c.joinGroup child parent path line =
        { c with diagnostics := c.diagnostics ++ found }) ∨
      (c.isAbove child c.groups.length parent = false ∧ c.parent? child = none ∧
        c.joinGroup child parent path line = c.adopt child parent) := by
  unfold joinGroup
  split
  next => exact .inl rfl
  next above =>
    split
    next free => exact .inr (.inr ⟨by simpa using above, free, rfl⟩)
    next kept _ =>
      split
      · exact .inl rfl
      · exact .inr (.inl ⟨_, rfl⟩)

theorem connect_grows (c : Collection) (group : Nat) (link : GroupLink) (path : Text)
    (line : Nat) : Grows c (c.connect group link path line) := by
  cases link with
  | parentOf child =>
    rw [connect]
    obtain same | ⟨found, same⟩ | ⟨-, -, same⟩ := joinGroup_cases c child group path line <;>
      (rw [same]; constructor <;> simp [adopt, modifyGroup])
  | member symbol => constructor <;> simp [connect, joinSymbol, modifyGroup]
  | file file => constructor <;> simp [connect, joinFile, modifyGroup]

theorem connect_waiting (c : Collection) (group : Nat) (link : GroupLink) (path : Text)
    (line : Nat) : (c.connect group link path line).waiting = c.waiting := by
  cases link with
  | parentOf child =>
    rw [connect]
    obtain same | ⟨found, same⟩ | ⟨-, -, same⟩ := joinGroup_cases c child group path line <;>
      rw [same]
    rfl
  | member symbol => rfl
  | file file => rfl

theorem Change.grows {c c' : Collection} (h : Change c c') : Grows c c' := by
  cases h with
  | connect group link path line _ _ => exact connect_grows c group link path line
  | _ => constructor <;> simp [modifyGroup, documentGroup]

theorem Changes.grows {c c' : Collection} (h : Changes c c') : Grows c c' := by
  induction h with
  | refl => exact .rfl
  | tail _ step ih => exact ih.trans step.grows

end Collection

theorem GroupLink.Within.mono {c c' : Collection} {link : GroupLink} (h : link.Within c)
    (grows : Collection.Grows c c') : link.Within c' := by
  cases link with
  | parentOf i => exact lt_of_lt_of_le (b := c.groups.length) h grows.groups
  | member i => exact lt_of_lt_of_le (b := c.symbols.length) h grows.symbols
  | file i => exact lt_of_lt_of_le (b := c.files.length) h grows.files

namespace Collection

/-- What waits still exists after a step. Only `wait` lets something new wait. -/
theorem Change.waiting_within {c c' : Collection} (h : Change c c')
    (hw : ∀ w ∈ c.waiting, w.link.Within c) : ∀ w ∈ c'.waiting, w.link.Within c' := by
  have grows := h.grows
  cases h with
  | wait w _ within =>
    intro v hv
    rcases List.mem_append.mp hv with old | new
    · exact (hw v old).mono grows
    · rw [List.mem_singleton.mp new]
      exact within.mono grows
  | release name => exact fun v hv => (hw v (List.mem_of_mem_filter hv)).mono grows
  | connect group link path line =>
    intro v hv
    rw [connect_waiting] at hv
    exact (hw v hv).mono grows
  | _ => exact fun v hv => (hw v hv).mono grows

theorem Change.coherent {c c' : Collection} (h : Change c c') (hc : c.Coherent) :
    c'.Coherent := by
  refine ⟨h.waiting_within hc.waiting, ?_⟩
  have aligned := hc.identities
  cases h with
  | declare decl doc file _ _ => simpa using aligned
  | redeclare index file doc _ => simpa using aligned
  | connect group link path line =>
    cases link with
    | parentOf child =>
      rw [Collection.connect]
      obtain same | ⟨found, same⟩ | ⟨-, -, same⟩ := joinGroup_cases c child group path line <;>
        (rw [same]; exact aligned)
    | member symbol => simpa [Collection.connect, joinSymbol, modifyGroup] using aligned
    | file file => exact aligned
  | _ => exact aligned

theorem Changes.coherent {c c' : Collection} (h : Changes c c') (hc : c.Coherent) :
    c'.Coherent := by
  induction h with
  | refl => exact hc
  | tail _ step ih => exact step.coherent ih

/-! ## Links -/

theorem groupIndex?_eq (c : Collection) (name : Text) :
    c.groupIndex? name = (c.groups.map Group.name).idxOf? name := by
  rw [List.idxOf?, List.findIdx?_map]
  rfl

theorem groupIndex?_lt {c : Collection} {name : Text} {index : Nat}
    (h : c.groupIndex? name = some index) : index < c.groups.length :=
  (List.findIdx?_eq_some_iff_getElem.mp h).1

theorem request_changes (c : Collection) (group : Text) (link : GroupLink) (path : Text)
    (line : Nat) (within : link.Within c) : Changes c (c.request group link path line) := by
  unfold request
  split
  next index found => exact .single (.connect c index link path line (groupIndex?_lt found) within)
  next unknown => exact .single (.wait c ⟨group, link, path, line⟩ unknown within)

theorem requestAll_changes (groups : List Text) (c : Collection) (link : GroupLink) (path : Text)
    (line : Nat) (within : link.Within c) : Changes c (c.requestAll groups link path line) := by
  induction groups generalizing c with
  | nil => exact .refl
  | cons group rest ih =>
    have first := request_changes c group link path line within
    exact first.trans (ih _ (within.mono first.grows))

theorem serve_changes (ready : List WaitingLink) (c : Collection) (group : Nat)
    (known : group < c.groups.length) (within : ∀ w ∈ ready, w.link.Within c) :
    Changes c (ready.foldl (fun c w => c.connect group w.link w.path w.line) c) := by
  induction ready generalizing c with
  | nil => exact .refl
  | cons w rest ih =>
    have step : Change c (c.connect group w.link w.path w.line) :=
      .connect c group w.link w.path w.line known (within w (by simp))
    refine .head step (ih _ (known.trans_le step.grows.groups) fun v hv => ?_)
    exact (within v (by simp [hv])).mono step.grows

theorem serveWaiting_changes (c : Collection) (name : Text) (group : Nat)
    (known : group < c.groups.length) (hc : c.Coherent) :
    Changes c (c.serveWaiting name group) :=
  .head (.release c name)
    (serve_changes _ _ group known fun w h => hc.waiting w (List.mem_of_mem_filter h))

/-! ## Groups and symbols -/

theorem enterGroup_changes (c : Collection) (op : GroupCommand) (name title path : Text)
    (line : Nat) (hc : c.Coherent) :
    Changes c (c.enterGroup op name title path line).1 ∧
      ∀ g, (c.enterGroup op name title path line).2 = some g →
        g < (c.enterGroup op name title path line).1.groups.length := by
  unfold enterGroup
  split
  next index found =>
    refine ⟨.single (.retitle c index title), ?_⟩
    rintro g ⟨⟩
    simpa using groupIndex?_lt found
  next new =>
    cases op with
    | extend => exact ⟨.single (.report c _), by simp⟩
    | define =>
      have created := Change.group c name title new
      have served := serveWaiting_changes _ name c.groups.length (by simp)
        (created.coherent hc)
      refine ⟨.head created served, ?_⟩
      rintro g ⟨⟩
      exact lt_of_lt_of_le (by simp) served.grows.groups

theorem record_changes (c : Collection) (decl : Declaration) (doc : Option Doc) (file : Nat)
    (path : Text) (line : Nat) (known : file < c.files.length) (hc : c.Coherent) :
    Changes c (c.record decl doc file path line).1 ∧
      (c.record decl doc file path line).2 <
        (c.record decl doc file path line).1.symbols.length := by
  unfold record
  split
  next index found =>
    have changed := Change.redeclare c index file doc known
    have bound : index < c.symbols.length := by
      rw [← hc.identities]
      exact (List.idxOf?_eq_some_iff.mp found).1
    dsimp only
    split
    · exact ⟨.head changed (.single (.report _ _)), by simpa [report] using bound⟩
    · exact ⟨.single changed, by simpa using bound⟩
  next new =>
    refine ⟨.single (.declare c decl doc file known ?_), by simp⟩
    simpa using new

/-! ## Events -/

namespace Progress

/-- All positions that are kept for later exist. -/
structure Within (p : Progress) : Prop where
  coherent : p.collection.Coherent
  scopes : ∀ g, some g ∈ p.scopes → g < p.collection.groups.length
  lastNamed : ∀ g, p.lastNamed = some (some g) → g < p.collection.groups.length

theorem Within.current {p : Progress} (hp : p.Within) {g : Nat} (h : p.current = some g) :
    g < p.collection.groups.length := by
  refine hp.scopes g ?_
  cases hs : p.scopes with
  | nil => simp [Progress.current, hs] at h
  | cons scope rest =>
    have : scope = some g := by simpa [Progress.current, hs] using h
    simp [this]

/-- Changes of the collection leave the open scopes where they are. -/
theorem Within.changes {p : Progress} (hp : p.Within) {c : Collection}
    (h : Changes p.collection c) : Progress.Within { p with collection := c } where
  coherent := h.coherent hp.coherent
  scopes g hg := (hp.scopes g hg).trans_le h.grows.groups
  lastNamed g hg := (hp.lastNamed g hg).trans_le h.grows.groups

/-- What naming a group does after the group has been entered. -/
theorem placeGroup_changes (p : Progress) (c : Collection) (op : GroupCommand) (group : Nat)
    (parents : List Text) (doc : Option Doc) (path : Text) (line : Nat)
    (known : group < c.groups.length)
    (current : ∀ scope, p.current = some scope → scope < c.groups.length) :
    Changes c
      (let c := (doc.map (c.documentGroup group)).getD c
       if !parents.isEmpty then c.requestAll parents (.parentOf group) path line
       else match op, p.current with
         | .define, some scope => if scope = group then c else c.joinGroup group scope path line
         | _, _ => c) := by
  have documented : Changes c ((doc.map (c.documentGroup group)).getD c) := by
    cases doc with
    | none => exact .refl
    | some doc => exact .single (.document c group doc)
  refine documented.trans ?_
  generalize (doc.map (c.documentGroup group)).getD c = c' at documented ⊢
  have known' := known.trans_le documented.grows.groups
  dsimp only
  split
  · exact requestAll_changes parents c' (.parentOf group) path line known'
  · split
    next scope here =>
      split
      · exact .refl
      · exact .single (.connect c' scope (.parentOf group) path line
          ((current scope here).trans_le documented.grows.groups) known')
    next => exact .refl

theorem nameGroup_changes (path : Text) (p : Progress) (op : GroupCommand) (name title : Text)
    (parents : List Text) (doc : Option Doc) (line : Nat) (hp : p.Within) :
    Changes p.collection (p.nameGroup path op name title parents doc line).collection ∧
      (p.nameGroup path op name title parents doc line).Within := by
  obtain ⟨entered, known⟩ :=
    enterGroup_changes p.collection op name title path line hp.coherent
  unfold nameGroup
  generalize p.collection.enterGroup op name title path line = result at entered known ⊢
  obtain ⟨c, opened⟩ := result
  have inside : ∀ {c' : Collection}, Changes c c' →
      Progress.Within { p with collection := c', lastNamed := some opened } := fun h =>
    { coherent := h.coherent (entered.coherent hp.coherent)
      scopes := fun g hg => (hp.scopes g hg).trans_le (entered.grows.trans h.grows).groups
      lastNamed := fun g hg => (known g (by simpa using hg)).trans_le h.grows.groups }
  cases opened with
  | none => exact ⟨entered, inside .refl⟩
  | some group =>
    have placed := placeGroup_changes p c op group parents doc path line (known group rfl)
      fun scope hs => (hp.current hs).trans_le entered.grows.groups
    exact ⟨entered.trans placed, inside placed⟩

theorem openScope_within (p : Progress) (group : Option Text) (hp : p.Within) :
    (p.openScope group).Within := by
  refine ⟨hp.coherent, fun g hg => ?_, hp.lastNamed⟩
  rcases List.mem_cons.mp hg with opened | old
  · cases group with
    | some name => exact groupIndex?_lt opened.symm
    | none =>
      cases hl : p.lastNamed with
      | none => exact hp.current (by simpa [hl] using opened.symm)
      | some last => exact hp.lastNamed g (by rw [hl]; simpa [hl] using opened.symm)
  · exact hp.scopes g old

/-- An event makes elementary changes only, and whatever is kept for later exists. -/
theorem event_changes (file : Nat) (path : Text) (p : Progress) (e : Event) (hp : p.Within)
    (known : file < p.collection.files.length) :
    Changes p.collection (p.event file path e).collection ∧ (p.event file path e).Within := by
  cases e with
  | group op name title parents doc line =>
    exact nameGroup_changes path p op name title parents doc line hp
  | openScope group => exact ⟨.refl, openScope_within p group hp⟩
  | closeScope line =>
    dsimp only [event]
    unfold closeScope
    split
    next scope rest scopes =>
      refine ⟨.refl, hp.coherent, fun g hg => hp.scopes g ?_, hp.lastNamed⟩
      rw [scopes]
      exact List.mem_cons_of_mem _ hg
    next =>
      have reported : Changes p.collection
          (p.collection.report (.unmatchedScope '}') path (some line)) :=
        .single (.report p.collection _)
      exact ⟨reported, hp.changes reported⟩
  | file groups =>
    have placed : Changes p.collection (p.placeFile file path groups).collection := by
      unfold placeFile
      dsimp only
      split
      · exact requestAll_changes groups p.collection (.file file) path 0 known
      · split
        next scope current =>
          exact .single (.connect p.collection scope (.file file) path 0 (hp.current current) known)
        next => exact .refl
    exact ⟨placed, hp.changes placed⟩
  | declare decl doc groups line =>
    obtain ⟨recorded, bound⟩ :=
      record_changes p.collection decl doc file path line known hp.coherent
    have declared : Changes p.collection (p.declare file path decl doc groups line).collection := by
      unfold declare
      generalize p.collection.record decl doc file path line = result at recorded bound ⊢
      obtain ⟨c, symbol⟩ := result
      dsimp only
      split
      · exact recorded.trans (requestAll_changes groups c (.member symbol) path line bound)
      · split
        next scope _ current =>
          exact recorded.tail (.connect c scope (.member symbol) path line
            ((hp.current current).trans_le recorded.grows.groups) bound)
        next => exact recorded
    exact ⟨declared, hp.changes declared⟩

theorem events_changes (file : Nat) (path : Text) (events : List Event) (p : Progress)
    (hp : p.Within) (known : file < p.collection.files.length) :
    Changes p.collection (events.foldl (event file path) p).collection ∧
      (events.foldl (event file path) p).Within := by
  induction events generalizing p with
  | nil => exact ⟨.refl, hp⟩
  | cons e rest ih =>
    obtain ⟨first, within⟩ := event_changes file path p e hp known
    obtain ⟨others, done⟩ := ih (p.event file path e) within (known.trans_le first.grows.files)
    exact ⟨first.trans others, done⟩

end Progress

/-! ## Files -/

/-- Where a file starts: it is known, and none of its events has been met. -/
def start (c : Collection) (next : Contribution) : Progress where
  collection := { c with
    files := c.files ++
      [{ id := c.files.length, path := next.path, includes := next.includes, doc := next.doc }]
    diagnostics := c.diagnostics ++ next.diagnostics }
  scopes := []
  lastNamed := none

/-- The collection in the middle of a file, after some of its events. -/
def during (before : List Contribution) (next : Contribution) (events : Nat) : Collection :=
  let c := ofContributions before
  ((next.events.take events).foldl (Progress.event c.files.length next.path)
    (c.start next)).collection

theorem start_changes (c : Collection) (next : Contribution) :
    Changes c (c.start next).collection :=
  .head (.file c next.path next.includes next.doc) (.single (.report _ next.diagnostics))

theorem taken_changes (c : Collection) (next : Contribution) (events : List Event)
    (hc : c.Coherent) :
    Changes c
      (events.foldl (Progress.event c.files.length next.path) (c.start next)).collection := by
  have started := start_changes c next
  have within : (c.start next).Within :=
    ⟨started.coherent hc, by simp [start], by simp [start]⟩
  exact started.trans
    (Progress.events_changes _ next.path events _ within (by simp [start])).1

theorem add_changes (c : Collection) (next : Contribution) (hc : c.Coherent) :
    Changes c (c.add next) := by
  have taken := taken_changes c next next.events hc
  unfold add
  dsimp only
  split
  · exact taken
  · exact taken.tail (.report _ _)

theorem empty_coherent : Coherent {} := ⟨by simp, rfl⟩

theorem adds_changes (contributions : List Contribution) (c : Collection) (hc : c.Coherent) :
    Changes c (contributions.foldl add c) := by
  induction contributions generalizing c with
  | nil => exact .refl
  | cons next rest ih =>
    have added := add_changes c next hc
    exact added.trans (ih _ (added.coherent hc))

theorem ofContributions_changes (contributions : List Contribution) :
    Changes {} (ofContributions contributions) :=
  adds_changes contributions {} empty_coherent

theorem during_changes (before : List Contribution) (next : Contribution) (events : Nat) :
    Changes {} (during before next events) := by
  have done := ofContributions_changes before
  exact done.trans (taken_changes _ next _ (done.coherent empty_coherent))

end Collection

end DocComment
