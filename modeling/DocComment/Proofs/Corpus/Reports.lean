import DocComment.Proofs.Corpus.Membership

/-!
# Reports are only written

No step of a run looks at what was reported before it. A run that starts with other reports is the
same run, and what it leads to differs in these reports only.
-/

set_option autoImplicit false

namespace DocComment

namespace Collection

/-- The same collection with more reports before its own. -/
def after (found : List Diagnostic) (c : Collection) : Collection :=
  { c with diagnostics := found ++ c.diagnostics }

variable (found : List Diagnostic) (c : Collection)

theorem report_after (problem : Problem) (path : Text) (line : Option Nat) :
    (c.after found).report problem path line = (c.report problem path line).after found := by
  simp [report, after]

/-! ## Links -/

theorem isAbove_after (group steps start : Nat) :
    (c.after found).isAbove group steps start = c.isAbove group steps start := by
  induction steps generalizing start with
  | zero => rfl
  | succ steps ih =>
    have same : (c.after found).parent? start = c.parent? start := rfl
    rw [isAbove, isAbove, same]
    cases c.parent? start with
    | none => rfl
    | some next => simp only [ih]

theorem joinGroup_after (child parent : Nat) (path : Text) (line : Nat) :
    (c.after found).joinGroup child parent path line =
      (c.joinGroup child parent path line).after found := by
  have sameAbove := isAbove_after found c child c.groups.length parent
  have sameParent : (c.after found).parent? child = c.parent? child := rfl
  unfold joinGroup
  rw [sameParent]
  change (if (c.after found).isAbove child c.groups.length parent then _ else _) = _
  rw [sameAbove]
  split
  · rfl
  · cases c.parent? child with
    | none => rfl
    | some kept =>
      dsimp only
      split
      · rfl
      · exact report_after found c _ path (some line)

theorem connect_after (group : Nat) (link : GroupLink) (path : Text) (line : Nat) :
    (c.after found).connect group link path line =
      (c.connect group link path line).after found := by
  cases link with
  | parentOf child => exact joinGroup_after found c child group path line
  | member symbol => rfl
  | file file => rfl

theorem request_after (group : Text) (link : GroupLink) (path : Text) (line : Nat) :
    (c.after found).request group link path line =
      (c.request group link path line).after found := by
  have same : (c.after found).groupIndex? group = c.groupIndex? group := rfl
  unfold request
  rw [same]
  cases c.groupIndex? group with
  | none => rfl
  | some index => exact connect_after found c index link path line

theorem requestAll_after (groups : List Text) (link : GroupLink) (path : Text) (line : Nat) :
    (c.after found).requestAll groups link path line =
      (c.requestAll groups link path line).after found := by
  induction groups generalizing c with
  | nil => rfl
  | cons group rest ih =>
    change ((c.after found).request group link path line).requestAll rest link path line = _
    rw [request_after, ih]
    rfl

theorem connectAll_after (ready : List WaitingLink) (group : Nat) :
    ready.foldl (fun c w => c.connect group w.link w.path w.line) (c.after found) =
      (ready.foldl (fun c w => c.connect group w.link w.path w.line) c).after found := by
  induction ready generalizing c with
  | nil => rfl
  | cons w rest ih => rw [List.foldl_cons, connect_after, ih, List.foldl_cons]

/-! ## Groups and symbols -/

theorem enterGroup_after (op : GroupCommand) (name title path : Text) (line : Nat) :
    (c.after found).enterGroup op name title path line =
      ((c.enterGroup op name title path line).1.after found,
        (c.enterGroup op name title path line).2) := by
  have same : (c.after found).groupIndex? name = c.groupIndex? name := rfl
  unfold enterGroup
  rw [same]
  cases c.groupIndex? name with
  | some index => rfl
  | none =>
    cases op with
    | extend => exact congrArg (·, none) (report_after found c _ path (some line))
    | define =>
      let group : Group := { id := c.groups.length, name, title }
      let created := { c with
        groups := c.groups ++ [group]
        waiting := c.waiting.filter fun w => w.group != name }
      exact congrArg (·, some c.groups.length) (connectAll_after found created
        (c.waiting.filter fun w => w.group == name) c.groups.length)

theorem record_after (decl : Declaration) (doc : Option Doc) (file : Nat) (path : Text)
    (line : Nat) :
    (c.after found).record decl doc file path line =
      ((c.record decl doc file path line).1.after found,
        (c.record decl doc file path line).2) := by
  have sameIndex : (c.after found).identities.idxOf? decl.identity =
      c.identities.idxOf? decl.identity := rfl
  unfold record
  rw [sameIndex]
  cases c.identities.idxOf? decl.identity with
  | none => rfl
  | some index =>
    let changed := { c with symbols := c.symbols.modify index (redeclare file doc) }
    have reported := report_after found changed (.alreadyDocumented decl.name) path (some line)
    have sameSymbols : (c.after found).symbols = c.symbols := rfl
    dsimp only
    rw [sameSymbols]
    split
    · exact congrArg (·, index) reported
    · rfl

theorem placeGroup_after (current : Option Nat) (op : GroupCommand) (group : Nat)
    (parents : List Text) (doc : Option Doc) (path : Text) (line : Nat) :
    (c.after found).placeGroup current op group parents doc path line =
      (c.placeGroup current op group parents doc path line).after found := by
  have documented : (doc.map ((c.after found).documentGroup group)).getD (c.after found) =
      ((doc.map (c.documentGroup group)).getD c).after found := by
    cases doc <;> rfl
  unfold placeGroup
  dsimp only
  rw [documented]
  generalize (doc.map (c.documentGroup group)).getD c = c'
  split
  · exact requestAll_after found c' parents (.parentOf group) path line
  · split
    · split
      · rfl
      · exact joinGroup_after found c' group _ path line
    · rfl

/-- What a declaration does after it has been recorded. -/
def placeSymbol (c : Collection) (current : Option Nat) (symbol : Nat) (decl : Declaration)
    (groups : List Text) (path : Text) (line : Nat) : Collection :=
  if !groups.isEmpty then c.requestAll groups (.member symbol) path line
  else match decl.owner, current with
    | none, some scope => c.joinSymbol scope symbol
    | _, _ => c

theorem placeSymbol_after (current : Option Nat) (symbol : Nat) (decl : Declaration)
    (groups : List Text) (path : Text) (line : Nat) :
    (c.after found).placeSymbol current symbol decl groups path line =
      (c.placeSymbol current symbol decl groups path line).after found := by
  unfold placeSymbol
  split
  · exact requestAll_after found c groups (.member symbol) path line
  · split <;> rfl

/-! ## Events -/

namespace Progress

theorem declare_eq (file : Nat) (path : Text) (p : Progress) (decl : Declaration)
    (doc : Option Doc) (groups : List Text) (line : Nat) :
    p.declare file path decl doc groups line =
      let recorded := p.collection.record decl doc file path line
      { p with
        collection := recorded.1.placeSymbol p.current recorded.2 decl groups path line } := rfl

def after (found : List Diagnostic) (p : Progress) : Progress :=
  { p with collection := p.collection.after found }

variable (p : Progress)

theorem nameGroup_after (path : Text) (op : GroupCommand) (name title : Text)
    (parents : List Text) (doc : Option Doc) (line : Nat) :
    (p.after found).nameGroup path op name title parents doc line =
      (p.nameGroup path op name title parents doc line).after found := by
  have entered : (p.after found).collection.enterGroup op name title path line = _ :=
    enterGroup_after found p.collection op name title path line
  rw [nameGroup_eq, nameGroup_eq]
  dsimp only
  rw [entered]
  generalize p.collection.enterGroup op name title path line = result
  obtain ⟨c, opened⟩ := result
  cases opened with
  | none => rfl
  | some group =>
    exact congrArg (Progress.mk · p.scopes (some (some group)))
      (placeGroup_after found c p.current op group parents doc path line)

theorem closeScope_after (path : Text) (line : Nat) :
    (p.after found).closeScope path line = (p.closeScope path line).after found := by
  obtain ⟨c, scopes, lastNamed⟩ := p
  cases scopes with
  | nil => exact congrArg (Progress.mk · [] lastNamed) (report_after found c _ path (some line))
  | cons scope rest => rfl

theorem placeFile_after (file : Nat) (path : Text) (groups : List Text) :
    (p.after found).placeFile file path groups = (p.placeFile file path groups).after found := by
  have sameCurrent : (p.after found).current = p.current := rfl
  unfold placeFile
  rw [sameCurrent]
  unfold Progress.after
  dsimp only
  congr 1
  split
  · exact requestAll_after found p.collection groups (.file file) path 0
  · cases p.current <;> rfl

theorem declare_after (file : Nat) (path : Text) (decl : Declaration) (doc : Option Doc)
    (groups : List Text) (line : Nat) :
    (p.after found).declare file path decl doc groups line =
      (p.declare file path decl doc groups line).after found := by
  have recorded : (p.after found).collection.record decl doc file path line = _ :=
    record_after found p.collection decl doc file path line
  rw [declare_eq, declare_eq]
  dsimp only
  rw [recorded, placeSymbol_after]
  rfl

theorem event_after (file : Nat) (path : Text) (e : Event) :
    (p.after found).event file path e = (p.event file path e).after found := by
  cases e with
  | group op name title parents doc line =>
    exact nameGroup_after found p path op name title parents doc line
  | openScope group => rfl
  | closeScope line => exact closeScope_after found p path line
  | file groups => exact placeFile_after found p file path groups
  | declare decl doc groups line => exact declare_after found p file path decl doc groups line

theorem events_after (file : Nat) (path : Text) (events : List Event) :
    events.foldl (event file path) (p.after found) =
      (events.foldl (event file path) p).after found := by
  induction events generalizing p with
  | nil => rfl
  | cons e rest ih => rw [List.foldl_cons, event_after, ih, List.foldl_cons]

end Progress

/-! ## Files -/

/-- What the end of a file leaves. -/
def leave (path : Text) (p : Progress) : Collection :=
  if p.scopes.isEmpty then p.collection else p.collection.report (.unmatchedScope '{') path none

theorem leave_after (path : Text) (p : Progress) :
    leave path (p.after found) = (leave path p).after found := by
  unfold leave
  change (if p.scopes.isEmpty = true then _ else _) = _
  split
  · rfl
  · exact report_after found p.collection _ path none

theorem add_eq (next : Contribution) :
    c.add next =
      leave next.path
        (next.events.foldl (Progress.event c.files.length next.path) (c.start next)) :=
  rfl

theorem add_after (next : Contribution) : (c.after found).add next = (c.add next).after found := by
  have started : (c.after found).start next = (c.start next).after found := by
    simp [start, after, Progress.after]
  have sameFiles : (c.after found).files.length = c.files.length := rfl
  rw [add_eq, add_eq, started, sameFiles, Progress.events_after, leave_after]

theorem adds_after (contributions : List Contribution) :
    contributions.foldl add (c.after found) = (contributions.foldl add c).after found := by
  induction contributions generalizing c with
  | nil => rfl
  | cons next rest ih => rw [List.foldl_cons, add_after, ih, List.foldl_cons]

/-! ## One more report -/

/-- The second collection has one more report and is the same otherwise. -/
def OneMore (report : Diagnostic) (c c' : Collection) : Prop :=
  ∃ bare : Collection, ∃ earlier : List Diagnostic,
    c = bare.after earlier ∧ c' = bare.after (earlier ++ [report])

theorem oneMore_report (problem : Problem) (path : Text) (line : Option Nat) :
    OneMore ⟨problem, some path, line⟩ c (c.report problem path line) :=
  ⟨{ c with diagnostics := [] }, c.diagnostics, by simp [after], by simp [after, report]⟩

/-- Whatever does not look at reports keeps the difference. -/
theorem OneMore.map {report : Diagnostic} {c c' : Collection} (h : OneMore report c c')
    {f : Collection → Collection}
    (blind : ∀ (found : List Diagnostic) (c : Collection),
      f (c.after found) = (f c).after found) :
    OneMore report (f c) (f c') := by
  obtain ⟨bare, earlier, rfl, rfl⟩ := h
  exact ⟨f bare, earlier, blind earlier bare, blind (earlier ++ [report]) bare⟩

/-- A run that goes on does not look at what was reported. -/
theorem OneMore.run {report : Diagnostic} {c c' : Collection} (h : c.OneMore report c')
    (scopes : List (Option Nat)) (lastNamed : Option (Option Nat)) (file : Nat) (path : Text)
    (late : List Event) (rest : List Contribution) :
    OneMore report
      (rest.foldl add (leave path (late.foldl (Progress.event file path) ⟨c, scopes, lastNamed⟩)))
      (rest.foldl add
        (leave path (late.foldl (Progress.event file path) ⟨c', scopes, lastNamed⟩))) := by
  refine h.map (f := fun c => rest.foldl add
    (leave path (late.foldl (Progress.event file path) ⟨c, scopes, lastNamed⟩))) fun found c => ?_
  rw [← adds_after, ← leave_after, ← Progress.events_after]
  rfl

end Collection

theorem Collection.toModel_after (found : List Diagnostic) (c : Collection) (options : Options) :
    (c.after found).toModel options =
      { c.toModel options with diagnostics := found ++ (c.toModel options).diagnostics } :=
  congrArg (fun all => { c.toModel options with diagnostics := all })
    (List.append_assoc found c.diagnostics (c.waiting.map unlinked))

/-- The second model has one more report and is the same otherwise. -/
def Model.OneMore (report : Diagnostic) (m m' : Model) : Prop :=
  ∃ earlier later : List Diagnostic, m.diagnostics = earlier ++ later ∧
    m' = { m with diagnostics := earlier ++ report :: later }

theorem Collection.OneMore.toModel {report : Diagnostic} {c c' : Collection}
    (h : c.OneMore report c') (options : Options) :
    (c.toModel options).OneMore report (c'.toModel options) := by
  obtain ⟨bare, earlier, rfl, rfl⟩ := h
  rw [toModel_after, toModel_after]
  exact ⟨earlier, (bare.toModel options).diagnostics, rfl, by simp⟩

end DocComment
