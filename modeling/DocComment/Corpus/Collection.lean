import DocComment.Corpus.Contribution
import DocComment.Corpus.Model
import DocComment.Corpus.Path

/-!
# Collecting a corpus

The contributions of files are taken in file order. A group comes into being where it is first
defined and can be reopened later; links to groups that are not defined yet wait for them.
Membership is in the order of first encounter over the whole corpus.
-/

set_option autoImplicit false

namespace DocComment

/-- What is to be linked to a group. -/
inductive GroupLink where
  | parentOf (child : Nat)
  | member (symbol : Nat)
  | file (file : Nat)
  deriving DecidableEq

/-- A link that waits for its group. -/
structure WaitingLink where
  group : Text
  link : GroupLink
  path : Text
  line : Nat
  deriving DecidableEq

structure Collection where
  files : List File := []
  groups : List Group := []
  symbols : List Symbol := []
  /-- The identities of the symbols, in the same order. -/
  identities : List SymbolIdentity := []
  waiting : List WaitingLink := []
  diagnostics : List Diagnostic := []

namespace Collection

def report (c : Collection) (problem : Problem) (path : Text) (line : Option Nat) : Collection :=
  { c with diagnostics := c.diagnostics ++ [⟨problem, some path, line⟩] }

def groupIndex? (c : Collection) (name : Text) : Option Nat :=
  c.groups.findIdx? fun g => g.name == name

def modifyGroup (c : Collection) (group : Nat) (f : Group → Group) : Collection :=
  { c with groups := c.groups.modify group f }

def groupName (c : Collection) (group : Nat) : Text := (c.groups[group]?.map Group.name).getD []

def parent? (c : Collection) (group : Nat) : Option Nat := c.groups[group]?.bind Group.parent

/-! ## Links -/

/-- Whether `group` is reached from `start` by at most `steps` steps to a parent. -/
def isAbove (c : Collection) (group : Nat) : Nat → Nat → Bool
  | 0, start => start == group
  | steps + 1, start =>
    start == group ||
      match c.parent? start with
      | some next => isAbove c group steps next
      | none => false

/-- Makes `parent` the parent of `child`. The first parent stays, and a link that would make a
group its own ancestor is dropped. -/
def joinGroup (c : Collection) (child parent : Nat) (path : Text) (line : Nat) : Collection :=
  if c.isAbove child c.groups.length parent then c
  else match c.parent? child with
    | none =>
      (c.modifyGroup child fun g => { g with parent := some parent }).modifyGroup parent
        (Group.insert (.group child))
    | some kept =>
      if kept = parent then c
      else c.report
        (.secondParent (c.groupName child) (c.groupName kept) (c.groupName parent))
        path (some line)

/-- A symbol belongs to the first group that it is added to. -/
def joinSymbol (c : Collection) (group symbol : Nat) : Collection :=
  { c.modifyGroup group (Group.insert (.symbol symbol)) with
    symbols := c.symbols.modify symbol fun s =>
      { s with group := s.group.or (some group) } }

/-- A file belongs to the first group that it is attached to. -/
def joinFile (c : Collection) (group file : Nat) : Collection :=
  { c.modifyGroup group fun g =>
      if g.files.contains file then g else { g with files := g.files ++ [file] } with
    files := c.files.modify file fun f => { f with group := f.group.or (some group) } }

def connect (c : Collection) (group : Nat) (link : GroupLink) (path : Text) (line : Nat) :
    Collection :=
  match link with
  | .parentOf child => c.joinGroup child group path line
  | .member symbol => c.joinSymbol group symbol
  | .file file => c.joinFile group file

/-- Applies a link to a group that is defined; otherwise the link waits. -/
def request (c : Collection) (group : Text) (link : GroupLink) (path : Text) (line : Nat) :
    Collection :=
  match c.groupIndex? group with
  | some index => c.connect index link path line
  | none => { c with waiting := c.waiting ++ [⟨group, link, path, line⟩] }

def requestAll (c : Collection) (groups : List Text) (link : GroupLink) (path : Text) (line : Nat) :
    Collection :=
  groups.foldl (fun c group => c.request group link path line) c

/-- Applies the links that waited for a group, in the order in which they were met. -/
def serveWaiting (c : Collection) (name : Text) (group : Nat) : Collection :=
  let ready := c.waiting.filter fun w => w.group == name
  let c := { c with waiting := c.waiting.filter fun w => w.group != name }
  ready.foldl (fun c w => c.connect group w.link w.path w.line) c

/-! ## Groups and symbols -/

/-- Defines or reopens a group. The first title that is not empty stays. -/
def enterGroup (c : Collection) (op : GroupCommand) (name title path : Text) (line : Nat) :
    Collection × Option Nat :=
  match c.groupIndex? name with
  | some index =>
    (c.modifyGroup index fun g => if g.title.isEmpty then { g with title } else g, some index)
  | none =>
    match op with
    | .extend => (c.report (.unknownGroup name) path (some line), none)
    | .define =>
      let index := c.groups.length
      let group : Group := { id := index, name, title }
      (serveWaiting { c with groups := c.groups ++ [group] } name index, some index)

def documentGroup (c : Collection) (group : Nat) (doc : Doc) : Collection :=
  c.modifyGroup group fun g =>
    { g with doc := some (match g.doc with
        | some kept => kept.append doc
        | none => doc) }

/-- Notes that a symbol is declared in one more file, perhaps with documentation. -/
def redeclare (file : Nat) (doc : Option Doc) (s : Symbol) : Symbol :=
  { s with
    redeclaredIn :=
      if s.file = file ∨ file ∈ s.redeclaredIn then s.redeclaredIn
      else s.redeclaredIn ++ [file]
    doc := s.doc.or doc }

/-- Records a declaration. An earlier one of the same identity is the same symbol. -/
def record (c : Collection) (decl : Declaration) (doc : Option Doc) (file : Nat)
    (path : Text) (line : Nat) : Collection × Nat :=
  match c.identities.idxOf? decl.identity with
  | some index =>
    let documented := (c.symbols[index]?.bind Symbol.doc).isSome
    let c' := { c with symbols := c.symbols.modify index (redeclare file doc) }
    (if documented && doc.isSome then
      c'.report (.alreadyDocumented decl.name) path (some line) else c', index)
  | none =>
    let index := c.symbols.length
    let symbol : Symbol :=
      { id := index, kind := decl.kind, name := decl.name, signature := decl.signature, file, doc }
    ({ c with
        symbols := c.symbols ++ [symbol]
        identities := c.identities ++ [decl.identity] }, index)

/-! ## Events -/

/-- Where the events of a file have led to. -/
structure Progress where
  collection : Collection
  /-- The groups of the open scopes, the innermost first. -/
  scopes : List (Option Nat)
  /-- What the last group event of the file has opened. -/
  lastNamed : Option (Option Nat)

namespace Progress

/-- The group of the innermost scope. -/
def current (p : Progress) : Option Nat := p.scopes.head?.join

def nameGroup (path : Text) (p : Progress) (op : GroupCommand) (name title : Text)
    (parents : List Text) (doc : Option Doc) (line : Nat) : Progress :=
  let (c, opened) := p.collection.enterGroup op name title path line
  let c :=
    match opened with
    | none => c
    | some group =>
      let c := (doc.map (c.documentGroup group)).getD c
      if !parents.isEmpty then c.requestAll parents (.parentOf group) path line
      else match op, p.current with
        | .define, some scope => if scope = group then c else c.joinGroup group scope path line
        | _, _ => c
  { p with collection := c, lastNamed := some opened }

def openScope (p : Progress) (group : Option Text) : Progress :=
  let opened :=
    match group with
    | some name => p.collection.groupIndex? name
    | none => p.lastNamed.getD p.current
  { p with scopes := opened :: p.scopes }

def closeScope (path : Text) (p : Progress) (line : Nat) : Progress :=
  match p.scopes with
  | _ :: rest => { p with scopes := rest }
  | [] =>
    { p with collection := p.collection.report (.unmatchedScope '}') path (some line) }

def placeFile (file : Nat) (path : Text) (p : Progress) (groups : List Text) : Progress :=
  let c := p.collection
  { p with
    collection :=
      if !groups.isEmpty then c.requestAll groups (.file file) path 0
      else match p.current with
        | some scope => c.joinFile scope file
        | none => c }

def declare (file : Nat) (path : Text) (p : Progress) (decl : Declaration)
    (doc : Option Doc) (groups : List Text) (line : Nat) : Progress :=
  let (c, symbol) := p.collection.record decl doc file path line
  { p with
    collection :=
      if !groups.isEmpty then c.requestAll groups (.member symbol) path line
      else match decl.owner, p.current with
        | none, some scope => c.joinSymbol scope symbol
        | _, _ => c }

def event (file : Nat) (path : Text) (p : Progress) : Event → Progress
  | .group op name title parents doc line => p.nameGroup path op name title parents doc line
  | .openScope group => p.openScope group
  | .closeScope line => p.closeScope path line
  | .file groups => p.placeFile file path groups
  | .declare decl doc groups line => p.declare file path decl doc groups line

end Progress

/-- Takes what the next file contributes. -/
def add (c : Collection) (next : Contribution) : Collection :=
  let file := c.files.length
  let added : File :=
    { id := file, path := next.path, includes := next.includes, doc := next.doc }
  let c := { c with
    files := c.files ++ [added]
    diagnostics := c.diagnostics ++ next.diagnostics }
  let p := next.events.foldl (Progress.event file next.path) ⟨c, [], none⟩
  if p.scopes.isEmpty then p.collection
  else p.collection.report (.unmatchedScope '{') next.path none

def ofContributions (contributions : List Contribution) : Collection :=
  contributions.foldl add {}

/-! ## The finished model -/

/-- The symbol that a member belongs to: the first type with this name, or else the first
symbol with it. -/
def owner? (symbols : List Symbol) (name : Text) : Option Nat :=
  let named := symbols.filter fun s => s.name == name
  ((named.find? fun s => s.kind.isType).or named.head?).map Symbol.id

def withOwners (c : Collection) : List Symbol :=
  List.zipWith (fun s (identity : SymbolIdentity) =>
    { s with owner := identity.owner.bind (owner? c.symbols) }) c.symbols c.identities

/-- The file that a path stands for: one with that path, or else one with that file name. -/
def includedFile? (files : List File) (path : Text) : Option File :=
  (files.find? fun f => Path.same f.path path).or
    (files.find? fun f => Path.fileName? f.path == Path.fileName? path)

/-- The pairs of groups such that a file of the first includes one of the second. -/
def includeEdges (files : List File) : List (Nat × Nat) :=
  files.flatMap fun f =>
    match f.group with
    | none => []
    | some source => f.includes.filterMap fun path =>
      ((includedFile? files path).bind File.group).bind fun target =>
        if target = source then none else some (source, target)

/-- Some groups, each once, by name. -/
def byName (c : Collection) (groups : List Nat) : List Nat :=
  let once := groups.foldl (fun seen g => if seen.contains g then seen else seen ++ [g]) []
  once.mergeSort fun a b => Text.precedes (c.groupName a) (c.groupName b)

def withIncludes (c : Collection) (edges : List (Nat × Nat)) (g : Group) : Group :=
  { g with
    includes := c.byName ((edges.filter fun e => e.1 == g.id).map Prod.snd)
    includedBy := c.byName ((edges.filter fun e => e.2 == g.id).map Prod.fst) }

/-- Leaves out the members that are symbols without documentation. -/
def hideUndocumented (symbols : List Symbol) (g : Group) : Group :=
  { g with
    members := g.members.filter fun
      | .symbol i => (symbols[i]?.bind Symbol.doc).isSome
      | .group _ => true }

def roots (groups : List Group) : List Nat :=
  let roots := groups.filter fun g => g.parent.isNone
  (roots.mergeSort fun a b => Text.precedes a.shownTitle b.shownTitle).map Group.id

/-- The report on a link whose group was never defined. -/
def unlinked (w : WaitingLink) : Diagnostic :=
  ⟨.unresolved w.group .notFound, some w.path, if w.line = 0 then none else some w.line⟩

/-- The model, in which no reference is resolved yet. -/
def toModel (options : Options) (c : Collection) : Model :=
  let symbols := c.withOwners
  let edges := includeEdges c.files
  let visible := if options.hideUndocumented then hideUndocumented symbols else id
  let groups := c.groups.map fun g => c.withIncludes edges (visible g)
  { files := c.files
    groups
    roots := roots groups
    symbols
    diagnostics := c.diagnostics ++ c.waiting.map unlinked }

end Collection

end DocComment
