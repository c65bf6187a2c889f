import DocComment.Proofs.Corpus.Register

/-!
# Scopes are brackets

The scopes of a file are read from its events alone, without a stack: the scope of a place is that
of the innermost open that no close before the place matches. What it has bound is settled where it
opens, so an open that binds nothing hides the scopes around it.
-/

set_option autoImplicit false

namespace DocComment

/-! ## Brackets

Events that have been met are listed latest first here. -/

namespace Scope

/-- How many scopes are open in the end, of `open` and those that the events open; none if an
event closes more than there are. -/
def depth? : Nat → List Event → Option Nat
  | depth, [] => some depth
  | depth, .openScope _ :: rest => depth? (depth + 1) rest
  | 0, .closeScope _ :: _ => none
  | depth + 1, .closeScope _ :: rest => depth? depth rest
  | depth, _ :: rest => depth? depth rest

/-- The latest open that is left unmatched when `closes` more closes follow, with what was met
before it. -/
def enclosing : Nat → List Event → Option (Option Text × List Event)
  | _, [] => none
  | closes, .closeScope _ :: met => enclosing (closes + 1) met
  | 0, .openScope group :: met => some (group, met)
  | closes + 1, .openScope _ :: met => enclosing closes met
  | closes, _ :: met => enclosing closes met

theorem depth?_concat (depth : Nat) (events : List Event) (e : Event) :
    depth? depth (events ++ [e]) = (depth? depth events).bind (depth? · [e]) := by
  fun_induction depth? depth events <;> simp_all [depth?]

theorem depth?_close {closes line : Nat} {events : List Event} :
    depth? 0 (events ++ [.closeScope line]) = some closes ↔
      depth? 0 events = some (closes + 1) := by
  rw [depth?_concat]
  rcases depth? 0 events with - | (- | depth) <;> simp [depth?]

theorem depth?_open {closes : Nat} {group : Option Text} {events : List Event} :
    depth? 0 (events ++ [.openScope group]) = some closes ↔
      ∃ depth, depth? 0 events = some depth ∧ depth + 1 = closes := by
  rw [depth?_concat]
  cases depth? 0 events <;> simp [depth?]

/-- Whether an element has `b` somewhere before it, read backwards: `b` comes next, or it is
before the element that comes next. -/
theorem exists_reverse_cons {α : Type} {P : List α → Prop} {a b : α} {l rest : List α} :
    (∃ inner, a :: l = inner.reverse ++ b :: rest ∧ P inner) ↔
      (a = b ∧ l = rest ∧ P []) ∨
        ∃ inner, l = inner.reverse ++ b :: rest ∧ P (inner ++ [a]) := by
  constructor
  · rintro ⟨inner, h, holds⟩
    rcases inner.eq_nil_or_concat' with rfl | ⟨inner, c, rfl⟩
    · exact .inl ⟨(List.cons.inj h).1, (List.cons.inj h).2, holds⟩
    · obtain ⟨rfl, before⟩ : a = c ∧ l = inner.reverse ++ b :: rest := by simpa using h
      exact .inr ⟨inner, before, holds⟩
  · rintro (⟨rfl, rfl, holds⟩ | ⟨inner, rfl, holds⟩)
    · exact ⟨[], rfl, holds⟩
    · exact ⟨inner ++ [a], by simp, holds⟩

/-- The matching of brackets: what stands between an open that encloses a place and the place is
balanced, up to the closes that follow. -/
theorem enclosing_eq_some_iff {closes : Nat} {met before : List Event} {group : Option Text} :
    enclosing closes met = some (group, before) ↔
      ∃ inner, met = inner.reverse ++ .openScope group :: before ∧
        depth? 0 inner = some closes := by
  fun_induction enclosing closes met with
  | case1 => simp
  | case2 closes line met ih => rw [ih, exists_reverse_cons]; simp [depth?_close]
  | case3 group' met => rw [exists_reverse_cons]; simp [depth?_open, depth?]
  | case4 closes group' met ih => rw [ih, exists_reverse_cons]; simp [depth?_open, depth?]
  | case5 closes e met notClose notOpen notOpen' ih =>
    have other (group : Option Text) : e ≠ .openScope group := by
      cases closes <;> simp_all
    have aside (inner : List Event) : depth? 0 (inner ++ [e]) = depth? 0 inner := by
      rw [depth?_concat]
      cases depth? 0 inner <;> cases e <;> simp_all [depth?]
    rw [ih, exists_reverse_cons]
    simp [aside, other]

theorem suffix_of_enclosing {closes : Nat} {met before : List Event} {group : Option Text}
    (h : enclosing closes met = some (group, before)) : before <:+ met := by
  obtain ⟨inner, rfl, -⟩ := enclosing_eq_some_iff.mp h
  exact (List.suffix_cons _ before).trans (List.suffix_append _ _)

theorem length_of_enclosing {closes : Nat} {met before : List Event} {group : Option Text}
    (h : enclosing closes met = some (group, before)) : before.length < met.length := by
  obtain ⟨inner, rfl, -⟩ := enclosing_eq_some_iff.mp h
  simp only [List.length_append, List.length_cons]
  omega

/-! ## What a scope binds -/

/-- The names of the groups after some events, if `names` were there before them. -/
def known (names : List Text) : List Event → List Text
  | [] => names
  | e :: met => e.defined?.elim (known names met) (Outline.note (known names met))

/-- What the latest group command has opened: the group that it names, if that is defined. -/
def latest? (names : List Text) : List Event → Option (Option Nat)
  | [] => none
  | e :: met =>
    match e with
    | .group _ name _ _ _ _ => some ((known names (e :: met)).idxOf? name)
    | _ => latest? names met

/-- The group that an open binds after some events. -/
def bound (names : List Text) : Option Text → List Event → Option Nat
  | some name, met => (known names met).idxOf? name
  | none, met =>
    match latest? names met with
    | some opened => opened
    | none =>
      match _ : enclosing 0 met with
      | some (group, before) => bound names group before
      | none => none
termination_by _ met => met.length
decreasing_by exact length_of_enclosing ‹_›

/-- The group of the scope that a place after some events is in. -/
def groupAt (names : List Text) (met : List Event) : Option Nat :=
  (enclosing 0 met).bind fun (group, before) => bound names group before

theorem bound_none (names : List Text) (met : List Event) :
    bound names none met = (latest? names met).getD (groupAt names met) := by
  rw [bound, groupAt]
  split
  next opened latest => simp [latest]
  next latest =>
    rw [latest, Option.getD_none]
    split <;> simp_all

theorem known_length_le (names : List Text) {met before : List Event} (earlier : before <:+ met) :
    (known names before).length ≤ (known names met).length := by
  induction met with
  | nil => rw [List.suffix_nil.mp earlier]
  | cons e met ih =>
    rcases List.suffix_cons_iff.mp earlier with rfl | earlier
    · exact le_rfl
    · refine (ih earlier).trans ?_
      rw [known]
      cases e.defined? with
      | none => exact le_rfl
      | some name =>
        rw [Option.elim_some, Outline.note]
        split <;> simp

theorem idxOf?_known_lt {names : List Text} {met before : List Event} (earlier : before <:+ met)
    {name : Text} {group : Nat} (h : (known names before).idxOf? name = some group) :
    group < (known names met).length :=
  (List.idxOf?_eq_some_iff.mp h).1.trans_le (known_length_le names earlier)

theorem latest?_lt {names : List Text} {met before : List Event} (earlier : before <:+ met)
    {group : Nat} (h : latest? names before = some (some group)) :
    group < (known names met).length := by
  induction before with
  | nil => cases h
  | cons e before ih =>
    cases e with
    | group op name title parents doc line => exact idxOf?_known_lt earlier (Option.some.inj h)
    | _ => exact ih ((List.suffix_cons _ _).trans earlier) h

/-- What is bound is there from then on. -/
theorem bound_lt {names : List Text} {open? : Option Text} {met before : List Event}
    (earlier : before <:+ met) {group : Nat} (h : bound names open? before = some group) :
    group < (known names met).length := by
  fun_induction bound names open? before with
  | case1 name before => exact idxOf?_known_lt earlier h
  | case2 before opened latest => exact latest?_lt earlier (latest.trans (congrArg some h))
  | case3 before latest open? outer found ih =>
    exact ih ((suffix_of_enclosing found).trans earlier) h
  | case4 => cases h

theorem groupAt_lt {names : List Text} {met : List Event} {group : Nat}
    (h : groupAt names met = some group) : group < (known names met).length := by
  obtain ⟨⟨open?, before⟩, found, here⟩ := Option.bind_eq_some_iff.mp h
  exact bound_lt (suffix_of_enclosing found) here

/-- The reports on the closes without an open to match. -/
def strays (path : Text) : List Event → List Diagnostic
  | [] => []
  | e :: met =>
    match e with
    | .closeScope line =>
      strays path met ++
        if (enclosing 0 met).isNone then [⟨.unmatchedScope '}', some path, some line⟩] else []
    | _ => strays path met

end Scope

/-! ## The stack of a run -/

def Problem.isOfScopes : Problem → Bool
  | .unmatchedScope _ => true
  | _ => false

namespace Collection

/-- Where some events of a file lead to. -/
def partway (c : Collection) (next : Contribution) (events : List Event) : Progress :=
  events.foldl (Progress.event c.files.length next.path) (c.start next)

def scopeReports (c : Collection) : List Diagnostic :=
  c.diagnostics.filter (·.problem.isOfScopes)

theorem scopeReports_eq (c : Collection) :
    c.scopeReports = c.register.reports.filter (·.problem.isOfScopes) :=
  (filter_isOfGroups (fun p h => by cases p <;> simp_all [Problem.isOfScopes, Problem.isOfGroups])
    c.diagnostics).symm

theorem nameGroup_scopeReports (r : Register) (op : GroupCommand) (name title path : Text)
    (doc : Option Doc) (line : Nat) :
    (r.nameGroup op name title doc path line).reports.filter (·.problem.isOfScopes) =
      r.reports.filter (·.problem.isOfScopes) := by
  unfold Register.nameGroup
  split
  · rfl
  · cases op with
    | define => rfl
    | extend => simp [Register.report, Problem.isOfScopes]

theorem report_scopeReports (c : Collection) (marker : Char) (path : Text) (line : Option Nat) :
    (c.report (.unmatchedScope marker) path line).scopeReports =
      c.scopeReports ++ [⟨.unmatchedScope marker, some path, line⟩] :=
  List.filter_append _ _

namespace Progress

/-- The stack holds what the opens that are left unmatched have bound. -/
structure Brackets (names : List Text) (path : Text) (found : List Diagnostic) (p : Progress)
    (met : List Event) : Prop where
  known : p.collection.groups.map Group.name = Scope.known names met
  lastNamed : p.lastNamed = Scope.latest? names met
  scopes : ∀ closes : Nat, p.scopes[closes]? =
    (Scope.enclosing closes met).map fun (group, before) => Scope.bound names group before
  reports : p.collection.scopeReports = found ++ Scope.strays path met

variable {names : List Text} {path : Text} {found : List Diagnostic} {p : Progress}
  {met : List Event}

namespace Brackets

theorem current (h : p.Brackets names path found met) : p.current = Scope.groupAt names met := by
  have top := h.scopes 0
  rw [Progress.current, Scope.groupAt, List.head?_eq_getElem?, top]
  cases Scope.enclosing 0 met <;> rfl

theorem scopes_isEmpty (h : p.Brackets names path found met) :
    p.scopes.isEmpty = (Scope.enclosing 0 met).isNone := by
  have top := h.scopes 0
  cases hs : p.scopes with
  | nil =>
    have outside : Scope.enclosing 0 met = none := by simpa [hs] using top.symm
    rw [outside]
    rfl
  | cons scope rest =>
    rw [hs] at top
    cases he : Scope.enclosing 0 met with
    | none => simp [he] at top
    | some _ => rfl

theorem opened (h : p.Brackets names path found met) (group : Option Text) :
    (p.openScope group).current = Scope.bound names group met := by
  cases group with
  | some name =>
    have index := p.collection.groupIndex?_eq name
    rw [h.known] at index
    rw [Scope.bound]
    exact index
  | none =>
    rw [Scope.bound_none, ← h.current, ← h.lastNamed]
    rfl

theorem lastNamed_event (h : p.Brackets names path found met) (file : Nat) (e : Event) :
    (p.event file path e).lastNamed = Scope.latest? names (e :: met) := by
  have known := p.event_names file path e
  cases e with
  | group op name title parents doc line =>
    refine (p.nameGroup_opened path op name title parents doc line).trans ?_
    rw [groupIndex?_eq]
    exact congrArg (fun names => some (List.idxOf? name names)) (known.trans (by rw [h.known]; rfl))
  | closeScope line =>
    change (p.closeScope path line).lastNamed = _
    unfold closeScope
    cases p.scopes <;> exact h.lastNamed
  | _ => exact h.lastNamed

theorem scopes_event (h : p.Brackets names path found met) (file : Nat) (e : Event)
    (closes : Nat) :
    (p.event file path e).scopes[closes]? =
      (Scope.enclosing closes (e :: met)).map fun (group, before) =>
        Scope.bound names group before := by
  cases e with
  | group op name title parents doc line =>
    cases closes <;> exact h.scopes _
  | openScope group =>
    cases closes with
    | zero => exact congrArg some (h.opened group)
    | succ closes => exact h.scopes closes
  | closeScope line =>
    have below := h.scopes (closes + 1)
    have popped : (p.closeScope path line).scopes = p.scopes.tail := by
      unfold closeScope
      cases p.scopes <;> rfl
    rw [← List.getElem?_tail, ← popped] at below
    cases closes <;> exact below
  | file groups => cases closes <;> exact h.scopes _
  | declare decl doc groups line => cases closes <;> exact h.scopes _

theorem reports_event (h : p.Brackets names path found met) (file : Nat) (e : Event) :
    (p.event file path e).collection.scopeReports = found ++ Scope.strays path (e :: met) := by
  have registered := p.event_register file path e
  cases e with
  | group op name title parents doc line =>
    rw [scopeReports_eq, registered, nameGroup_scopeReports, ← scopeReports_eq]
    exact h.reports
  | closeScope line =>
    change (p.closeScope path line).collection.scopeReports = found ++ (Scope.strays path met ++
      if (Scope.enclosing 0 met).isNone then _ else [])
    rw [← h.scopes_isEmpty, ← List.append_assoc, ← h.reports]
    unfold closeScope
    cases p.scopes with
    | nil => exact report_scopeReports p.collection '}' path (some line)
    | cons scope rest => exact (List.append_nil _).symm
  | _ => rw [scopeReports_eq, registered, ← scopeReports_eq]; exact h.reports

/-- One event, met after some others. -/
theorem event (h : p.Brackets names path found met) (file : Nat) (e : Event) :
    (p.event file path e).Brackets names path found (e :: met) where
  known := by
    rw [event_names, h.known]
    rfl
  lastNamed := h.lastNamed_event file e
  scopes := h.scopes_event file e
  reports := h.reports_event file e

end Brackets

end Progress

variable (c : Collection) (next : Contribution)

theorem partway_brackets (events : List Event) :
    (c.partway next events).Brackets (c.groups.map Group.name) next.path
      (c.scopeReports ++ next.diagnostics.filter (·.problem.isOfScopes)) events.reverse := by
  induction events using List.reverseRecOn with
  | nil =>
    exact
      { known := rfl
        lastNamed := rfl
        scopes := fun closes => by cases closes <;> rfl
        reports := by
          exact (List.filter_append _ _).trans (List.append_nil _).symm }
  | append_singleton events e ih =>
    rw [partway, List.foldl_concat, List.reverse_concat]
    exact ih.event c.files.length e

theorem add_scopeReports :
    (c.add next).scopeReports =
      c.scopeReports ++ next.diagnostics.filter (·.problem.isOfScopes) ++
        Scope.strays next.path next.events.reverse ++
        if (Scope.enclosing 0 next.events.reverse).isSome then
          [⟨.unmatchedScope '{', some next.path, none⟩]
        else [] := by
  have done := partway_brackets c next next.events
  rw [← done.reports, ← Option.not_isNone, ← done.scopes_isEmpty, add_eq]
  change (leave next.path (c.partway next next.events)).scopeReports = _
  unfold leave
  cases (c.partway next next.events).scopes with
  | nil => exact (List.append_nil _).symm
  | cons scope rest => exact report_scopeReports _ '{' next.path none

theorem record_groups (decl : Declaration) (doc : Option Doc) (file : Nat) (path : Text)
    (line : Nat) : (c.record decl doc file path line).1.groups = c.groups := by
  unfold record
  split
  · dsimp only
    split <;> rfl
  · rfl

/-- The number of the symbol that a declaration is one of: the number that its identity has, or else
the next one. -/
def numberOf (c : Collection) (decl : Declaration) : Nat :=
  (c.identities.idxOf? decl.identity).getD c.symbols.length

theorem record_snd (decl : Declaration) (doc : Option Doc) (file : Nat) (path : Text)
    (line : Nat) : (c.record decl doc file path line).2 = c.numberOf decl := by
  unfold record numberOf
  cases c.identities.idxOf? decl.identity <;> rfl

/-- A declaration without groups of its own, of something that is no member, changes only the
group of the scope that it stands in. -/
theorem declare_groups (p : Progress) (file : Nat) (path : Text) (kind : SymbolKind)
    (name signature : Text) (doc : Option Doc) (line : Nat) :
    let decl : Declaration := ⟨kind, name, signature, none⟩
    (p.event file path (.declare decl doc [] line)).collection.groups =
      match p.current with
      | some group =>
        p.collection.groups.modify group (Group.insert (.symbol (p.collection.numberOf decl)))
      | none => p.collection.groups := by
  intro decl
  have kept := record_groups p.collection decl doc file path line
  have number := record_snd p.collection decl doc file path line
  change (p.declare file path decl doc [] line).collection.groups = _
  rw [Progress.declare_eq, ← kept, ← number]
  cases p.current <;> rfl

end Collection

/-! ## One more member -/

/-- Groups before and after a member is put in one of them. It is a member of that one afterwards,
behind those before it unless it was among them. Nothing else of that group changes, and nothing of
any other. -/
structure Group.Gains (x : Member) (group : Nat) (before after : List Group) : Prop where
  others : ∀ i, i ≠ group → after[i]? = before[i]?
  gained : ∃ g, before[group]? = some g ∧
    after[group]? = some { g with members := if x ∈ g.members then g.members else g.members ++ [x] }
  holds : ∃ g, after[group]? = some g ∧ x ∈ g.members

theorem Group.insert_eq_ite (x : Member) (g : Group) :
    g.insert x = { g with members := if x ∈ g.members then g.members else g.members ++ [x] } := by
  unfold insert
  by_cases known : x ∈ g.members <;> simp [known]

theorem Group.gains_insert (x : Member) {group : Nat} {groups : List Group}
    (known : group < groups.length) :
    Gains x group groups (groups.modify group (insert x)) := by
  have found : groups[group]? = some groups[group] := List.getElem?_eq_getElem known
  have became : (groups.modify group (insert x))[group]? = some (insert x groups[group]) := by
    rw [List.getElem?_modify_eq, found, Option.map_eq_map, Option.map_some]
  refine ⟨fun i other => List.getElem?_modify_ne _ _ other.symm, ⟨_, found, ?_⟩, _, became, ?_⟩
  · rw [became, insert_eq_ite]
  · rw [insert_eq_ite]
    by_cases already : x ∈ groups[group].members <;> simp [already]

open Collection

/-- Whatever a collection holds, the scopes of the next file match like brackets. An open with a
name binds the group of that name if there is one by then, and one without binds what the latest
group command of the file has opened, or else the group of the scope around it. A declaration that
asks for no group and is no member becomes a member of the group of the innermost scope and of no
other, and of none if that scope has bound none. Every close without an open is reported at its
line, and opens without a close are reported once. -/
theorem scopes_are_brackets (c : Collection) (next : Contribution) :
    let names := c.groups.map Group.name
    (∀ events : List Event,
      let p := c.partway next events
      p.collection.groups.map Group.name = Scope.known names events.reverse ∧
      (∀ group, (p.openScope group).current = Scope.bound names group events.reverse) ∧
      ∀ kind name signature doc line,
        let decl : Declaration := ⟨kind, name, signature, none⟩
        let declared := p.event c.files.length next.path (.declare decl doc [] line)
        match Scope.groupAt names events.reverse with
        | some group => Group.Gains (.symbol (p.collection.numberOf decl)) group
            p.collection.groups declared.collection.groups
        | none => declared.collection.groups = p.collection.groups) ∧
    (c.add next).scopeReports =
      c.scopeReports ++ next.diagnostics.filter (·.problem.isOfScopes) ++
        Scope.strays next.path next.events.reverse ++
        if (Scope.enclosing 0 next.events.reverse).isSome then
          [⟨.unmatchedScope '{', some next.path, none⟩]
        else [] := by
  refine ⟨fun events => ?_, add_scopeReports c next⟩
  have here := partway_brackets c next events
  refine ⟨here.known, here.opened, fun kind name signature doc line => ?_⟩
  have changed := declare_groups (c.partway next events) c.files.length next.path kind name
    signature doc line
  rw [here.current] at changed
  cases scope : Scope.groupAt (c.groups.map Group.name) events.reverse with
  | none =>
    rw [scope] at changed
    exact changed
  | some group =>
    rw [scope] at changed
    have known := Scope.groupAt_lt scope
    rw [← here.known, List.length_map] at known
    dsimp only
    rw [changed]
    exact Group.gains_insert _ known

end DocComment
