import DocComment.Diagnostic
import DocComment.Corpus.Source
import DocComment.Markup.Doc

/-!
# The documentation model

Symbols, groups, files and anchors refer to each other by their positions in the model.
-/

set_option autoImplicit false

namespace DocComment

inductive Member where
  | symbol (index : Nat)
  | group (index : Nat)
  deriving DecidableEq

structure Group where
  id : Nat
  /-- The name that commands use for it. -/
  name : Text
  title : Text
  parent : Option Nat := none
  /-- In the order in which they were added, each once. -/
  members : List Member := []
  files : List Nat := []
  doc : Option Doc := none
  /-- The groups whose files the files of this group include. -/
  includes : List Nat := []
  /-- The groups whose files include files of this group. -/
  includedBy : List Nat := []

/-- Adds a member, unless it is one already. -/
def Group.insert (member : Member) (g : Group) : Group :=
  if g.members.contains member then g else { g with members := g.members ++ [member] }

def Group.shownTitle (g : Group) : Text := if g.title.isEmpty then g.name else g.title

structure Symbol where
  id : Nat
  kind : SymbolKind
  name : Text
  signature : Text
  /-- The first file that declares it. -/
  file : Nat
  redeclaredIn : List Nat := []
  group : Option Nat := none
  owner : Option Nat := none
  doc : Option Doc := none

/-- The name with that of its owner in front. -/
def Symbol.qualifiedName (s : Symbol) (owner : Option Symbol) : Text :=
  match owner with
  | some owner => owner.name ++ "::".toList ++ s.name
  | none => s.name

structure File where
  id : Nat
  path : Text
  includes : List Text := []
  group : Option Nat := none
  doc : Option Doc := none

structure Anchor where
  name : Text
  /-- The symbol, group or file whose documentation holds it. -/
  owner : Target
  deriving DecidableEq

structure Model where
  files : List File := []
  groups : List Group := []
  /-- The groups without a parent, by title. -/
  roots : List Nat := []
  symbols : List Symbol := []
  anchors : List Anchor := []
  diagnostics : List Diagnostic := []

namespace Model

def groupNamed? (m : Model) (name : Text) : Option Group := m.groups.find? fun g => g.name == name

def symbolNamed? (m : Model) (name : Text) : Option Symbol :=
  m.symbols.find? fun s => s.name == name

/-- The owner of an anchor; anything else stands for itself. -/
def holder (m : Model) (target : Target) : Target :=
  match target with
  | .anchor i => (m.anchors[i]?.map Anchor.owner).getD target
  | _ => target

/-- The documentation of a symbol, a group or a file. -/
def ownDoc? (m : Model) (owner : Target) : Option Doc :=
  match owner with
  | .symbol i => m.symbols[i]?.bind Symbol.doc
  | .group i => m.groups[i]?.bind Group.doc
  | .file i => m.files[i]?.bind File.doc
  | .anchor _ => none

def docAt? (m : Model) (target : Target) : Option Doc := m.ownDoc? (m.holder target)

def memberName? (m : Model) : Member → Option Text
  | .symbol i => m.symbols[i]?.map Symbol.name
  | .group i => m.groups[i]?.map Group.name

def memberNames (m : Model) (g : Group) : List Text := g.members.filterMap m.memberName?

def qualifiedName (m : Model) (s : Symbol) : Text :=
  s.qualifiedName (s.owner.bind fun i => m.symbols[i]?)

def hasErrors (m : Model) : Bool := m.diagnostics.any fun d => d.severity == .error

def hasWarnings (m : Model) : Bool := m.diagnostics.any fun d => d.severity == .warning

/-- All documentation with its owners: that of symbols, then groups, then files. -/
def documented (m : Model) : List (Target × Doc) :=
  m.symbols.filterMap (fun s => s.doc.map (.symbol s.id, ·)) ++
    m.groups.filterMap (fun g => g.doc.map (.group g.id, ·)) ++
    m.files.filterMap (fun f => f.doc.map (.file f.id, ·))

/-- Replaces all documentation, in the same order. -/
def traverseDocs {f : Type → Type} [Monad f] (change : Target → Doc → f Doc)
    (m : Model) : f Model := do
  let symbols ← m.symbols.mapM fun s =>
    return { s with doc := ← s.doc.mapM (change (.symbol s.id)) }
  let groups ← m.groups.mapM fun g =>
    return { g with doc := ← g.doc.mapM (change (.group g.id)) }
  let files ← m.files.mapM fun d =>
    return { d with doc := ← d.doc.mapM (change (.file d.id)) }
  return { m with symbols, groups, files }

end Model

end DocComment
