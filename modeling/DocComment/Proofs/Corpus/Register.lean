import DocComment.Proofs.Corpus.Ledger
import DocComment.Proofs.Corpus.Reports
import DocComment.Proofs.Corpus.Requests

/-!
# The register of groups

What the commands of groups and scopes leave in a collection: the groups with their titles and
their documentation, and the reports on the commands. Links, symbols and files leave it alone.
-/

set_option autoImplicit false

namespace DocComment

theorem modify_concat {α : Type} (l : List α) (a : α) (f : α → α) :
    (l ++ [a]).modify l.length f = l ++ [f a] := by
  induction l with
  | nil => rfl
  | cons b rest ih => simp [ih]

theorem idxOf?_concat {α : Type} [BEq α] [LawfulBEq α] {l : List α} {a : α} (new : a ∉ l) :
    (l ++ [a]).idxOf? a = some l.length := by
  rw [idxOf?_of_mem (by simp), List.idxOf_append_of_notMem new]
  simp

/-- Whether something is wrong with a command of a group or of a scope. -/
def Problem.isOfGroups : Problem → Bool
  | .unknownGroup _ | .unmatchedScope _ => true
  | _ => false

/-- A group as its own commands make it. -/
structure GroupEntry where
  name : Text
  title : Text := []
  doc : Option Doc := none

def Group.entry (g : Group) : GroupEntry := ⟨g.name, g.title, g.doc⟩

/-- Narrowing down the reports on such commands. -/
theorem filter_isOfGroups {own : Problem → Bool} (narrower : ∀ p, own p → p.isOfGroups)
    (reports : List Diagnostic) :
    (reports.filter (·.problem.isOfGroups)).filter (own ·.problem) =
      reports.filter (own ·.problem) := by
  rw [List.filter_filter]
  refine List.filter_congr fun d _ => ?_
  cases h : own d.problem with
  | false => rfl
  | true => exact narrower d.problem h

namespace GroupEntry

def retitle (title : Text) (e : GroupEntry) : GroupEntry :=
  { e with title := if e.title.isEmpty then title else e.title }

def document (doc : Option Doc) (e : GroupEntry) : GroupEntry :=
  { e with doc := doc.elim e.doc fun doc => some (e.doc.elim doc (·.append doc)) }

/-- One more command for the same group. -/
def take (title : Text) (doc : Option Doc) (e : GroupEntry) : GroupEntry :=
  (e.retitle title).document doc

@[simp] theorem take_name (title : Text) (doc : Option Doc) (e : GroupEntry) :
    (e.take title doc).name = e.name := rfl

end GroupEntry

structure Register where
  entries : List GroupEntry
  reports : List Diagnostic

namespace Register

def names (r : Register) : List Text := r.entries.map GroupEntry.name

def report (r : Register) (problem : Problem) (path : Text) (line : Option Nat) : Register :=
  { r with reports := r.reports ++ [⟨problem, some path, line⟩] }

/-- The command of a group: what is there already is extended, and only a definition makes
something new. -/
def nameGroup (r : Register) (op : GroupCommand) (name title : Text) (doc : Option Doc)
    (path : Text) (line : Nat) : Register :=
  match r.names.idxOf? name with
  | some index => { r with entries := r.entries.modify index (GroupEntry.take title doc) }
  | none =>
    match op with
    | .extend => r.report (.unknownGroup name) path (some line)
    | .define => { r with entries := r.entries ++ [GroupEntry.take title doc { name }] }

variable (r : Register) (op : GroupCommand) (name title path : Text) (doc : Option Doc) (line : Nat)

theorem names_nameGroup :
    (r.nameGroup op name title doc path line).names =
      match op with
      | .define => Outline.note r.names name
      | .extend => r.names := by
  unfold nameGroup
  split
  next index known =>
    have same := map_modify (h := id) (GroupEntry.take_name title doc) r.entries index
    rw [List.modify_id] at same
    have mem : name ∈ r.names := List.isSome_idxOf?.mp (Option.isSome_of_eq_some known)
    cases op with
    | define => exact same.trans (if_pos (List.contains_iff_mem.mpr mem)).symm
    | extend => exact same
  next new =>
    have absent : name ∉ r.names := List.idxOf?_eq_none_iff.mp new
    cases op with
    | define =>
      rw [Outline.note, if_neg (mt List.contains_iff_mem.mp absent)]
      simp [names]
    | extend => rfl

end Register

namespace Collection

def register (c : Collection) : Register where
  entries := c.groups.map Group.entry
  reports := c.diagnostics.filter (·.problem.isOfGroups)

variable (c : Collection)

theorem register_names : c.register.names = c.groups.map Group.name := by
  simp [Register.names, register, Group.entry]

theorem groupIndex?_register (name : Text) :
    c.groupIndex? name = c.register.names.idxOf? name := by
  rw [groupIndex?_eq, register_names]

theorem modifyGroup_register {f : Group → Group} (kept : ∀ g, (f g).entry = g.entry)
    (group : Nat) : (c.modifyGroup group f).register = c.register := by
  have same := map_modify (h := id) kept c.groups group
  rw [List.modify_id] at same
  exact congrArg (Register.mk · _) same

theorem report_register {problem : Problem} (other : problem.isOfGroups = false) (path : Text)
    (line : Option Nat) : (c.report problem path line).register = c.register := by
  simp [register, report, other]

theorem report_ofGroups {problem : Problem} (own : problem.isOfGroups = true) (path : Text)
    (line : Option Nat) :
    (c.report problem path line).register = c.register.report problem path line := by
  simp [register, report, Register.report, own]

/-! ## Links -/

theorem entry_insert (member : Member) (g : Group) : (g.insert member).entry = g.entry := by
  unfold Group.insert
  split <;> rfl

theorem joinGroup_register (child parent : Nat) (path : Text) (line : Nat) :
    (c.joinGroup child parent path line).register = c.register := by
  unfold joinGroup
  split
  · rfl
  · split
    · rw [modifyGroup_register _ (entry_insert _)]
      exact c.modifyGroup_register (f := fun g => { g with parent := some parent })
        (fun _ => rfl) child
    · split
      · rfl
      · exact c.report_register rfl path (some line)

theorem connect_register (group : Nat) (link : GroupLink) (path : Text) (line : Nat) :
    (c.connect group link path line).register = c.register := by
  cases link with
  | parentOf child => exact c.joinGroup_register child group path line
  | member symbol => exact c.modifyGroup_register (entry_insert _) group
  | file file =>
    refine c.modifyGroup_register (fun g => ?_) group
    split <;> rfl

theorem request_register (group : Text) (link : GroupLink) (path : Text) (line : Nat) :
    (c.request group link path line).register = c.register := by
  unfold request
  split
  · exact c.connect_register _ link path line
  · rfl

theorem requestAll_register (groups : List Text) (link : GroupLink) (path : Text) (line : Nat) :
    (c.requestAll groups link path line).register = c.register := by
  induction groups generalizing c with
  | nil => rfl
  | cons group rest ih =>
    exact (ih (c.request group link path line)).trans (c.request_register group link path line)

theorem connectAll_register (ready : List WaitingLink) (group : Nat) :
    (ready.foldl (fun c w => c.connect group w.link w.path w.line) c).register = c.register := by
  induction ready generalizing c with
  | nil => rfl
  | cons w rest ih => rw [List.foldl_cons, ih, connect_register]

theorem placeSymbol_register (current : Option Nat) (symbol : Nat) (decl : Declaration)
    (groups : List Text) (path : Text) (line : Nat) :
    (c.placeSymbol current symbol decl groups path line).register = c.register := by
  unfold placeSymbol
  split
  · exact c.requestAll_register groups (.member symbol) path line
  · split
    · exact c.connect_register _ (.member symbol) path line
    · rfl

theorem record_register (decl : Declaration) (doc : Option Doc) (file : Nat) (path : Text)
    (line : Nat) : (c.record decl doc file path line).1.register = c.register := by
  unfold record
  split
  · dsimp only
    split
    · exact report_register _ rfl path (some line)
    · rfl
  · rfl

/-! ## Group commands -/

theorem documentGroup_register (group : Nat) (doc : Option Doc) :
    ((doc.map (c.documentGroup group)).getD c).register =
      { c.register with
        entries := c.register.entries.modify group (GroupEntry.document doc) } := by
  cases doc with
  | none =>
    have same : GroupEntry.document none = id := rfl
    rw [same, List.modify_id]
    rfl
  | some doc =>
    refine congrArg (Register.mk · _) (map_modify (fun g => ?_) c.groups group)
    simp only [Group.entry, GroupEntry.document, Option.elim_some]
    cases g.doc <;> rfl

theorem placeGroup_register (current : Option Nat) (op : GroupCommand) (group : Nat)
    (parents : List Text) (doc : Option Doc) (path : Text) (line : Nat) :
    (c.placeGroup current op group parents doc path line).register =
      ((doc.map (c.documentGroup group)).getD c).register := by
  unfold placeGroup
  generalize (doc.map (c.documentGroup group)).getD c = c'
  dsimp only
  split
  · exact c'.requestAll_register parents (.parentOf group) path line
  · split
    · split
      · rfl
      · exact c'.joinGroup_register group _ path line
    · rfl

/-- A title for a group that is there. -/
theorem retitle_register (group : Nat) (title : Text) :
    (c.modifyGroup group fun g => if g.title.isEmpty then { g with title } else g).register =
      { c.register with
        entries := c.register.entries.modify group (GroupEntry.retitle title) } := by
  refine congrArg (Register.mk · _) (map_modify (fun g => ?_) c.groups group)
  unfold Group.entry GroupEntry.retitle
  dsimp only
  split <;> simp_all

/-- A group that comes into being, with the links that waited for it. -/
theorem create_register (name title : Text) :
    let group : Group := { id := c.groups.length, name, title }
    (serveWaiting { c with groups := c.groups ++ [group] } name c.groups.length).register =
      { c.register with
        entries := c.register.entries ++ [GroupEntry.retitle title { name }] } := by
  intro group
  rw [serveWaiting, connectAll_register]
  exact congrArg (Register.mk · _) List.map_append

namespace Progress

variable (p : Progress)

/-- What is entered is then documented. -/
theorem nameGroup_register (path : Text) (op : GroupCommand) (name title : Text)
    (parents : List Text) (doc : Option Doc) (line : Nat) :
    (p.nameGroup path op name title parents doc line).collection.register =
      p.collection.register.nameGroup op name title doc path line := by
  rw [nameGroup_eq]
  unfold enterGroup Register.nameGroup
  rw [groupIndex?_register]
  cases known : p.collection.register.names.idxOf? name with
  | some index =>
    dsimp only
    rw [placeGroup_register, documentGroup_register, retitle_register]
    dsimp only
    rw [List.modify_modify_eq]
    rfl
  | none =>
    cases op with
    | extend => exact p.collection.report_ofGroups rfl path (some line)
    | define =>
      have last : p.collection.groups.length = p.collection.register.entries.length := by
        simp [register]
      dsimp only
      rw [placeGroup_register, documentGroup_register, create_register, last]
      simp [modify_concat, GroupEntry.take]

theorem nameGroup_opened (path : Text) (op : GroupCommand) (name title : Text)
    (parents : List Text) (doc : Option Doc) (line : Nat) :
    (p.nameGroup path op name title parents doc line).lastNamed =
      some ((p.nameGroup path op name title parents doc line).collection.groupIndex? name) := by
  rw [groupIndex?_register, nameGroup_register, Register.names_nameGroup, nameGroup_eq]
  unfold enterGroup
  rw [groupIndex?_register]
  cases known : p.collection.register.names.idxOf? name with
  | some index =>
    have mem : name ∈ p.collection.register.names :=
      List.isSome_idxOf?.mp (Option.isSome_of_eq_some known)
    cases op <;> simp [Outline.note, mem, known]
  | none =>
    have absent := List.idxOf?_eq_none_iff.mp known
    cases op with
    | extend => simp [known]
    | define =>
      have noted : Outline.note p.collection.register.names name =
          p.collection.register.names ++ [name] := if_neg (mt List.contains_iff_mem.mp absent)
      have last : p.collection.groups.length = p.collection.register.names.length := by
        simp [register_names]
      simp only [noted, idxOf?_concat absent, last]

theorem event_register (file : Nat) (path : Text) (e : Event) :
    (p.event file path e).collection.register =
      match e with
      | .group op name title _ doc line =>
        p.collection.register.nameGroup op name title doc path line
      | .closeScope line =>
        if p.scopes.isEmpty then
          p.collection.register.report (.unmatchedScope '}') path (some line)
        else p.collection.register
      | _ => p.collection.register := by
  cases e with
  | group op name title parents doc line =>
    exact p.nameGroup_register path op name title parents doc line
  | openScope group => rfl
  | closeScope line =>
    change (p.closeScope path line).collection.register = _
    unfold closeScope
    cases p.scopes with
    | nil => exact p.collection.report_ofGroups rfl path (some line)
    | cons scope rest => rfl
  | file groups =>
    change (p.placeFile file path groups).collection.register = _
    unfold placeFile
    dsimp only
    split
    · exact p.collection.requestAll_register groups (.file file) path 0
    · split
      · exact p.collection.connect_register _ (.file file) path 0
      · rfl
  | declare decl doc groups line =>
    exact (placeSymbol_register _ p.current _ decl groups path line).trans
      (p.collection.record_register decl doc file path line)

/-- Only definitions give new names, and each name is given once. -/
theorem event_names (file : Nat) (path : Text) (e : Event) :
    (p.event file path e).collection.groups.map Group.name =
      e.defined?.elim (p.collection.groups.map Group.name)
        (Outline.note (p.collection.groups.map Group.name)) := by
  rw [← register_names, event_register, ← register_names]
  cases e with
  | group op name title parents doc line =>
    dsimp only
    rw [Register.names_nameGroup]
    cases op <;> rfl
  | closeScope line =>
    dsimp only
    split <;> rfl
  | _ => rfl

end Progress

theorem start_register (next : Contribution) :
    (c.start next).collection.register =
      { c.register with
        reports := c.register.reports ++ next.diagnostics.filter (·.problem.isOfGroups) } :=
  congrArg (Register.mk _ ·) (List.filter_append c.diagnostics next.diagnostics)

theorem leave_register (path : Text) (p : Progress) :
    (leave path p).register =
      if p.scopes.isEmpty then p.collection.register
      else p.collection.register.report (.unmatchedScope '{') path none := by
  unfold leave
  split
  · rfl
  · exact p.collection.report_ofGroups rfl path none

end Collection

end DocComment
