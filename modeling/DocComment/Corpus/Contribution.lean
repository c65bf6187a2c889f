import DocComment.Corpus.Source
import DocComment.Documentation

/-!
# What one file contributes

The comments of a file are bound to its declarations, its groups and the file itself, and
become a list of events in the order of the file. Nothing outside the file is needed. A file
with a comment that holds a control character contributes nothing but a report.
-/

set_option autoImplicit false

namespace DocComment

inductive GroupCommand where
  | define
  | extend
  deriving DecidableEq

inductive Event where
  /-- A group is named; `parents` are the groups that its comment asks to be put in. -/
  | group (op : GroupCommand) (name title : Text) (parents : List Text) (doc : Option Doc)
      (line : Nat)
  /-- A scope opens, for the group named in the same comment if there is one. -/
  | openScope (group : Option Text)
  | closeScope (line : Nat)
  /-- The place of a file command. -/
  | file (groups : List Text)
  | declare (decl : Declaration) (doc : Option Doc) (groups : List Text) (line : Nat)

structure Contribution where
  index : Nat
  path : Text
  includes : List Text
  doc : Option Doc
  events : List Event
  diagnostics : List Diagnostic

/-- Documentation on its way to a symbol, with the groups that the symbol is put in. -/
structure BoundDoc where
  doc : Option Doc
  groups : List Text

structure FileDraft where
  path : Text
  events : List Event
  doc : Option Doc
  diagnostics : List Diagnostic

namespace FileDraft

def report (draft : FileDraft) (problem : Problem) (line : Nat) : FileDraft :=
  { draft with diagnostics := draft.diagnostics ++ [⟨problem, some draft.path, some line⟩] }

/-- The events of the directives of a comment. The first group that it names takes its
documentation and its parents; `named` is the group named last. -/
def directiveEvents (fileGroups parents : List Text) (doc : Option Doc) (line : Nat) :
    (named : Option Text) → List Directive → List Event
  | _, [] => []
  | named, d :: rest =>
    let group (op : GroupCommand) (name title : Text) : List Event :=
      (if named.isNone then .group op name title parents doc line
        else .group op name title [] none line) ::
        directiveEvents fileGroups parents doc line (some name) rest
    match d with
    | .defineGroup name title => group .define name title
    | .extendGroup name title => group .extend name title
    | .joinGroups _ => directiveEvents fileGroups parents doc line named rest
    | .openScope => .openScope named :: directiveEvents fileGroups parents doc line named rest
    | .closeScope => .closeScope line :: directiveEvents fileGroups parents doc line named rest
    | .file => .file fileGroups :: directiveEvents fileGroups parents doc line named rest

/-- The first documentation of a file is kept. -/
def documentFile (draft : FileDraft) (doc : Doc) (line : Nat) : FileDraft :=
  match draft.doc with
  | some _ => draft.report (.alreadyDocumented draft.path) line
  | none => { draft with doc := some doc }

/-- Emits the events of a comment at line `line` of the file. What is left is for a symbol,
unless the comment documents a group or the file. -/
def place (draft : FileDraft) (d : Documentation) (line : Nat) : FileDraft × Option BoundDoc :=
  let forFile := d.namesFile && !d.namesGroup
  let doc := if d.doc.isEmpty then none else some d.doc
  let found := d.diagnostics.map fun e =>
    { e with file := some draft.path, line := some (line + e.line.getD 0) }
  let groups := d.wantedGroups
  let events :=
    directiveEvents (if forFile then groups else []) groups doc line none d.directives
  let draft := { draft with
    events := draft.events ++ events
    diagnostics := draft.diagnostics ++ found }
  if d.namesGroup then (draft, none)
  else if forFile then
    match doc with
    | some doc => (draft.documentFile doc line, none)
    | none => (draft, none)
  else (draft, some ⟨doc, groups⟩)

/-- Adds to the last declaration among some events; the name of the declaration is given back
if it has documentation already and is offered more. -/
def attachTo (content : BoundDoc) : List Event → Option (List Event × Option Text)
  | [] => none
  | e :: rest =>
    match attachTo content rest with
    | some (rest, refused) => some (e :: rest, refused)
    | none =>
      match e with
      | .declare decl doc groups line =>
        let refused := if doc.isSome && content.doc.isSome then some decl.name else none
        some (.declare decl (doc.or content.doc) (groups ++ content.groups) line :: rest,
          refused)
      | _ => none

/-- Gives documentation to the last declaration, if there is one. -/
def attach (draft : FileDraft) (content : BoundDoc) (line : Nat) : FileDraft :=
  match attachTo content draft.events with
  | none => draft
  | some (events, refused) =>
    match refused with
    | some name => { draft with events }.report (.alreadyDocumented name) line
    | none => { draft with events }

def addDeclaration (draft : FileDraft) (decl : Declaration) (content : BoundDoc) (line : Nat) :
    FileDraft :=
  { draft with events := draft.events ++ [.declare decl content.doc content.groups line] }

/-- Binds the comment in front of a fragment. A trailing comment documents what came before;
otherwise its content is for the symbol of the fragment. -/
def addBefore (options : Options) (draft : FileDraft) (raw : Text) (line : Nat) :
    Except CommentError (FileDraft × BoundDoc) := do
  let comment := Comment.ofRaw options.tabWidth raw
  let (draft, content) := draft.place (← Documentation.ofComment options comment) line
  match content with
  | none => return (draft, ⟨none, []⟩)
  | some content =>
    if comment.trailing then return (draft.attach content line, ⟨none, []⟩)
    else return (draft, content)

/-- Binds the comment behind a fragment. -/
def addAfter (options : Options) (draft : FileDraft) (raw : Text) (line : Nat) :
    Except CommentError FileDraft := do
  let comment := Comment.ofRaw options.tabWidth raw
  let (draft, content) := draft.place (← Documentation.ofComment options comment) line
  match content with
  | none => return draft
  | some content => return draft.attach content line

def addFragment (options : Options) (draft : FileDraft) (fragment : SourceFragment) :
    Except CommentError FileDraft := do
  let (draft, content) ←
    match fragment.before with
    | some raw => draft.addBefore options raw fragment.line
    | none => pure (draft, ⟨none, []⟩)
  let draft :=
    match fragment.declaration with
    | some decl => draft.addDeclaration decl content fragment.line
    | none => draft
  match fragment.after with
  | some raw => draft.addAfter options raw fragment.line
  | none => return draft

/-- Binds fragments one after another, up to the first that cannot be read. -/
def addAll (options : Options) :
    FileDraft → List SourceFragment → Except (CommentError × Nat) FileDraft
  | draft, [] => .ok draft
  | draft, fragment :: rest =>
    match draft.addFragment options fragment with
    | .ok draft => addAll options draft rest
    | .error e => .error (e, fragment.line)

end FileDraft

namespace Contribution

/-- The contribution of a file; none if the blocks of a comment nest too deep. -/
def ofSource? (options : Options) (index : Nat) (source : SourceFile) : Option Contribution :=
  match FileDraft.addAll options ⟨source.path, [], none, []⟩ source.fragments with
  | .ok draft =>
    some ⟨index, source.path, source.includes, draft.doc, draft.events, draft.diagnostics⟩
  | .error (.controlCharacter e, line) =>
    let report : Diagnostic := ⟨.unreadableFile e.message, some source.path, some line⟩
    some ⟨index, source.path, source.includes, none, [], [report]⟩
  | .error (.nesting, _) => none

end Contribution

end DocComment
