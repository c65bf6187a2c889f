import DocComment.Proofs.Corpus.Change

/-!
# What the events ask for

Read without any collection, the events of a corpus define groups, declare symbols and ask for
things to be put into groups. A group is known by its name here, also before it is defined, so
nothing has to wait.
-/

set_option autoImplicit false

namespace DocComment

def Event.defined? : Event → Option Text
  | .group .define name _ _ _ _ => some name
  | _ => none

def Event.declared? : Event → Option SymbolIdentity
  | .declare decl _ _ _ => some decl.identity
  | _ => none

/-- What the events so far have named. -/
structure Outline where
  /-- The groups that are defined, in the order of their first definitions. -/
  groups : List Text := []
  /-- The symbols that are declared, in the order of their first declarations. -/
  symbols : List SymbolIdentity := []
  /-- The groups of the open scopes, the innermost first. -/
  scopes : List (Option Text) := []
  lastNamed : Option (Option Text) := none

namespace Outline

/-- Adds an entry at the end, unless it is there. -/
def note {α : Type} [BEq α] (l : List α) (a : α) : List α := if l.contains a then l else l ++ [a]

def current (o : Outline) : Option Text := o.scopes.head?.join

/-- What a group command opens: to extend a group is no use before it is defined. -/
def opened? (o : Outline) (op : GroupCommand) (name : Text) : Option Text :=
  if op = .define ∨ name ∈ o.groups then some name else none

def scope (o : Outline) : Option Text → Option Text
  | some name => if name ∈ o.groups then some name else none
  | none => o.lastNamed.getD o.current

def next (o : Outline) (e : Event) : Outline where
  groups := e.defined?.elim o.groups (note o.groups)
  symbols := e.declared?.elim o.symbols (note o.symbols)
  scopes :=
    match e with
    | .openScope group => o.scope group :: o.scopes
    | .closeScope _ => o.scopes.tail
    | _ => o.scopes
  lastNamed :=
    match e with
    | .group op name _ _ _ _ => some (o.opened? op name)
    | _ => o.lastNamed

/-- The groups that something is put in: those that its comment names, or else that of the
scope. -/
def wanted (o : Outline) (named : List Text) : List Text :=
  if named.isEmpty then o.current.toList else named

/-- The groups that a group is put in. Only a definition minds the scope. -/
def wantedParents (o : Outline) (op : GroupCommand) (name : Text) (parents : List Text) :
    List Text :=
  if op = .define ∧ parents.isEmpty then o.current.toList.filter (· != name) else parents

/-- Everything that an event wants linked. -/
def requests (file : Nat) (path : Text) (o : Outline) : Event → List WaitingLink
  | .group op name _ parents _ line =>
    if (o.opened? op name).isSome then
      (o.wantedParents op name parents).map fun group =>
        ⟨group, .parentOf (o.groups.idxOf name), path, line⟩
    else []
  | .file named => (o.wanted named).map fun group => ⟨group, .file file, path, 0⟩
  | .declare decl _ named line =>
    -- A member stays with its owner unless its comment says otherwise.
    if named.isEmpty ∧ decl.owner.isSome then []
    else (o.wanted named).map fun group =>
      ⟨group, .member (o.symbols.idxOf decl.identity), path, line⟩
  | .openScope _ | .closeScope _ => []

def requestsAll (file : Nat) (path : Text) : Outline → List Event → List WaitingLink
  | _, [] => []
  | o, e :: rest => o.requests file path e ++ requestsAll file path (o.next e) rest

/-- A file starts outside all scopes. -/
def enterFile (o : Outline) : Outline := { o with scopes := [], lastNamed := none }

def afterFile (o : Outline) (c : Contribution) : Outline := c.events.foldl next o.enterFile

/-- The requests of some files, the first of which has the number `file`. -/
def requestsFrom : Nat → Outline → List Contribution → List WaitingLink
  | _, _, [] => []
  | file, o, c :: rest =>
    o.enterFile.requestsAll file c.path c.events ++ requestsFrom (file + 1) (o.afterFile c) rest

end Outline

/-- The groups that a corpus defines, in the order of their first definitions. -/
def definedGroups (contributions : List Contribution) : List Text :=
  (contributions.flatMap fun c => c.events.filterMap Event.defined?).eraseDups

/-- The symbols that a corpus declares, in the order of their first declarations. -/
def declaredSymbols (contributions : List Contribution) : List SymbolIdentity :=
  (contributions.flatMap fun c => c.events.filterMap Event.declared?).eraseDups

/-- Everything that a corpus wants linked, file by file and event by event. -/
def requestsOf (contributions : List Contribution) : List WaitingLink :=
  Outline.requestsFrom 0 {} contributions

def GroupLink.symbol? : GroupLink → Option Nat
  | .member symbol => some symbol
  | _ => none

/-- The symbols that some requests put in a group, each where it is asked for first. -/
def requestedSymbols (group : Text) (requests : List WaitingLink) : List Nat :=
  ((requests.filter fun w => w.group == group).filterMap fun w => w.link.symbol?).eraseDups

namespace Outline

/-! ## First occurrences -/

theorem eraseDups_concat {α : Type} [BEq α] [LawfulBEq α] (l : List α) (a : α) :
    (l ++ [a]).eraseDups = note l.eraseDups a := by
  rw [List.eraseDups_append]
  by_cases h : a ∈ l <;> simp [note, List.removeAll, h, List.eraseDups_cons]

theorem filterMap_noted {α : Type} [BEq α] [LawfulBEq α] (named? : Event → Option α)
    (before : List α) (events : List Event) :
    events.foldl (fun l e => (named? e).elim l (note l)) before.eraseDups =
      (before ++ events.filterMap named?).eraseDups := by
  induction events generalizing before with
  | nil => simp
  | cons e rest ih =>
    cases h : named? e with
    | none => simpa [h] using ih before
    | some a =>
      rw [List.foldl_cons, h, Option.elim_some, ← eraseDups_concat, ih, List.filterMap_cons_some h,
        List.append_assoc, List.singleton_append]

theorem foldl_next (events : List Event) (o : Outline) :
    (events.foldl next o).groups =
        events.foldl (fun l e => e.defined?.elim l (note l)) o.groups ∧
      (events.foldl next o).symbols =
        events.foldl (fun l e => e.declared?.elim l (note l)) o.symbols := by
  induction events generalizing o with
  | nil => exact ⟨rfl, rfl⟩
  | cons e rest ih => exact ih (o.next e)

/-- The outline of a corpus lists what is defined and declared in it. -/
theorem foldl_afterFile (contributions : List Contribution) (o : Outline) (groups : List Text)
    (symbols : List SymbolIdentity) (hg : o.groups = groups.eraseDups)
    (hs : o.symbols = symbols.eraseDups) :
    (contributions.foldl afterFile o).groups = (groups ++
        contributions.flatMap fun c => c.events.filterMap Event.defined?).eraseDups ∧
      (contributions.foldl afterFile o).symbols = (symbols ++
        contributions.flatMap fun c => c.events.filterMap Event.declared?).eraseDups := by
  induction contributions generalizing o groups symbols with
  | nil => simp [hg, hs]
  | cons c rest ih =>
    obtain ⟨hg', hs'⟩ := foldl_next c.events o.enterFile
    have here := ih (o.afterFile c) (groups ++ c.events.filterMap Event.defined?)
      (symbols ++ c.events.filterMap Event.declared?)
      (by rw [afterFile, hg', ← filterMap_noted, ← hg]; rfl)
      (by rw [afterFile, hs', ← filterMap_noted, ← hs]; rfl)
    simpa using here

theorem ofContributions_groups (contributions : List Contribution) :
    (contributions.foldl afterFile {}).groups = definedGroups contributions := by
  simpa [definedGroups] using (foldl_afterFile contributions {} [] [] rfl rfl).1

theorem ofContributions_symbols (contributions : List Contribution) :
    (contributions.foldl afterFile {}).symbols = declaredSymbols contributions := by
  simpa [declaredSymbols] using (foldl_afterFile contributions {} [] [] rfl rfl).2

end Outline

end DocComment
