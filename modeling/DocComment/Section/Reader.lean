import DocComment.Block.Blocks
import DocComment.Section.Arguments
import DocComment.Section.Brief

/-!
# Reading sections

Blocks go to the section that is open. A section command closes the open block and opens
another section; a blank line leads back to the detail, except inside a paragraph block.
Grouping commands carry no text and are noted as directives.
-/

set_option autoImplicit false

namespace DocComment

/-- A grouping or placement command. -/
inductive Directive where
  | defineGroup (name title : Text)
  | extendGroup (name title : Text)
  | joinGroups (names : List Text)
  | openScope
  | closeScope
  | file
  deriving DecidableEq

/-- The section that blocks go to. -/
inductive Section where
  | detail
  | brief
  /-- Parameters that are named together share one body. -/
  | params (first count : Nat)
  | returns
  | retval (index : Nat)
  | admonition (index : Nat)
  | seeAlso
  deriving DecidableEq

namespace Section

/-- Adds blocks to the brief description, which holds one; the others are detail. -/
def addBrief (doc : Doc) : List Node → Doc
  | [] => doc
  | node :: rest =>
    match doc.brief with
    | none => { doc with brief := some node, detail := doc.detail ++ rest }
    | some _ => { doc with detail := doc.detail ++ node :: rest }

/-- Adds blocks to the parameters from number `first` on. -/
def addParams (first count : Nat) (nodes : List Node) (params : List (ParamEntry Node)) :
    List (ParamEntry Node) :=
  params.mapIdx fun i p =>
    if first ≤ i ∧ i < first + count then { p with body := p.body ++ nodes } else p

/-- Adds blocks to a section. -/
def add (dest : Section) (nodes : List Node) (doc : Doc) : Doc :=
  if nodes.isEmpty then doc
  else match dest with
    | detail => { doc with detail := doc.detail ++ nodes }
    | brief => addBrief doc nodes
    | params first count => { doc with params := addParams first count nodes doc.params }
    | returns => doc.addReturns nodes
    | retval index =>
      { doc with retvals := doc.retvals.modify index fun r => { r with body := r.body ++ nodes } }
    | admonition index =>
      { doc with
        admonitions := doc.admonitions.modify index fun a => { a with body := a.body ++ nodes } }
    | seeAlso => { doc with seeAlso := doc.seeAlso ++ nodes }

end Section

structure SectionReader where
  blocks : BlockReader
  doc : Doc
  /-- The section that blocks go to. -/
  current : Section
  /-- Whether a paragraph block is open, in which blank lines do not end the section. -/
  parBlock : Bool
  /-- Whether a command has marked the brief description. -/
  explicitBrief : Bool
  directives : List Directive
  diagnostics : List Diagnostic

namespace SectionReader

def start : SectionReader := ⟨.empty, {}, .detail, false, false, [], []⟩

section

variable (options : Options) (inner : BlockParser)

/-- Delivers the blocks read so far and turns to another section. -/
def turnTo (dest : Section) (s : SectionReader) : Option SectionReader := do
  let blocks ← Item.completeAll inner s.blocks.items
  return { s with
    blocks := .empty
    doc := s.current.add blocks.nodes s.doc
    current := dest
    diagnostics := s.diagnostics ++ blocks.diagnostics }

def feed (token : Token) (s : SectionReader) : SectionReader :=
  { s with blocks := s.blocks.feed options token }

/-- Reads the text after a command. -/
def feedText (t : Text) (line : Nat) (s : SectionReader) : SectionReader :=
  if t.isEmpty then s else s.feed options ⟨line, .text 0 t, t⟩

def enter (dest : Section) (t : Text) (line : Nat) (s : SectionReader) :
    Option SectionReader :=
  (s.turnTo inner dest).map (feedText options t line)

def addDirective (d : Directive) (s : SectionReader) : Option SectionReader :=
  (s.turnTo inner .detail).map fun s => { s with directives := s.directives ++ [d] }

def addParams (direction : ParamDirection) (args : Text) (line : Nat) (s : SectionReader) :
    Option SectionReader :=
  let (names, body) := Section.parameterNames args
  let dest := Section.params s.doc.params.length names.length
  let added := names.map fun name => ⟨name, direction, []⟩
  enter options inner dest body line
    { s with doc := { s.doc with params := s.doc.params ++ added } }

def addRetval (args : Text) (line : Nat) (s : SectionReader) : Option SectionReader :=
  let (value, body) := Section.takeWord args
  enter options inner (.retval s.doc.retvals.length) body line
    { s with doc := { s.doc with retvals := s.doc.retvals ++ [⟨value, []⟩] } }

def addAdmonition (kind : AdmonitionKind) (title : Option Text) (t : Text) (line : Nat)
    (s : SectionReader) : Option SectionReader :=
  enter options inner (.admonition s.doc.admonitions.length) t line
    { s with doc := { s.doc with admonitions := s.doc.admonitions ++ [⟨kind, title, []⟩] } }

/-- The number of the last paragraph with a heading of its own. -/
def lastPar? (admonitions : List (Admonition Node)) : Option Nat :=
  (admonitions.reverse.findIdx? fun a => a.kind == .par).map (admonitions.length - 1 - ·)

/-- A paragraph under a heading. Without a heading it goes on with the last one. -/
def heading (args : Text) (line : Nat) (s : SectionReader) : Option SectionReader :=
  match lastPar? s.doc.admonitions with
  | some index =>
    if args.isEmpty then enter options inner (.admonition index) [] line s
    else addAdmonition options inner .par (some args) [] line s
  | none => addAdmonition options inner .par (if args.isEmpty then none else some args) [] line s

/-- The return section is there from its command on, whether or not text follows. -/
def addReturns (args : Text) (line : Nat) (s : SectionReader) : Option SectionReader :=
  (s.turnTo inner .returns).map fun s =>
    feedText options args line { s with doc := s.doc.addReturns [] }

/-- Carries out a block command. List items and diagrams belong to the text of the section. -/
def perform (c : BlockCommand) (args : Text) (t : Token) (s : SectionReader) :
    Option SectionReader :=
  let named := fun (make : Text → Text → Directive) =>
    let (name, title) := Section.takeWord args
    s.addDirective inner (make name title)
  match c with
  | .brief => enter options inner .brief args t.line { s with explicitBrief := true }
  | .details => s.enter options inner .detail args t.line
  | .param =>
    let (direction, rest) := Section.takeDirection args
    s.addParams options inner direction rest t.line
  | .templateParam => s.addParams options inner .unspecified args t.line
  | .returns => s.addReturns options inner args t.line
  | .retval => s.addRetval options inner args t.line
  | .see => s.enter options inner .seeAlso args t.line
  | .warning => s.addAdmonition options inner .warning none args t.line
  | .note => s.addAdmonition options inner .note none args t.line
  | .todo => s.addAdmonition options inner .todo none args t.line
  | .par => s.heading options inner args t.line
  | .parBlock => some (feedText options args t.line { s with parBlock := true })
  | .endParBlock => some { s with parBlock := false }
  | .defineGroup => named .defineGroup
  | .extendGroup => named .extendGroup
  | .joinGroups => s.addDirective inner (.joinGroups (Text.words args))
  | .openScope => s.addDirective inner .openScope
  | .closeScope => s.addDirective inner .closeScope
  | .file => s.addDirective inner .file
  | .listItem | .dotFile => some (s.feed options t)

def next (t : Token) (s : SectionReader) : Option SectionReader :=
  match t.kind with
  | .command name args =>
    match BlockCommand.ofName? name with
    | some c => s.perform options inner c args t
    | none => some (s.feed options t)
  | .blank =>
    let s := s.feed options t
    if s.current = .detail ∨ s.parBlock then some s else s.turnTo inner .detail
  | _ => some (s.feed options t)

/-- Closes the last section and finds the brief description if none is marked. -/
def complete (s : SectionReader) : Option SectionReader := do
  let s ← s.turnTo inner s.current
  if s.doc.brief.isSome || s.explicitBrief then return s
  let (brief, detail) := Section.takeBrief options.brief s.doc.detail
  return { s with doc := { s.doc with brief, detail } }

/-- Reads the tokens of a comment. -/
def read (tokens : List Token) : Option SectionReader := do
  let s ← tokens.foldlM (fun s t => s.next options inner t) start
  s.complete options inner

end

end SectionReader

end DocComment
