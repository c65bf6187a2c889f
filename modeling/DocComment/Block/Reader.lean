import DocComment.Block.Definition
import DocComment.Block.List
import DocComment.Block.Table
import DocComment.Diagnostic
import DocComment.Line.Token
import DocComment.Options

/-!
# Reading blocks

At most one block is open at a time. A token that cannot go on with it closes it, and what is
closed becomes an item. Quotes and definition lists become items as lines: their contents are
documents of their own, which are not read here.
-/

set_option autoImplicit false

namespace DocComment

/-- The block that lines are being collected for. -/
inductive OpenBlock where
  | paragraph (lines : List Text)
  | fence (fence : Fence) (arg : Option Text) (lines : List Text)
  | list (draft : ListDraft)
  | table (draft : TableDraft)
  | quote (line : Nat) (lines : List Text)
  /-- Blank lines count only if more verbatim text follows them. -/
  | verbatim (lines : List Text) (blanks : Nat)
  /-- The lists that are open after the last line, which has the number `lastLine`. -/
  | definitions (line : Nat) (lines : List Text) (depth : Int) (lastLine : Nat)

/-- What reading leaves behind, in order. -/
inductive Item where
  | node (node : Node)
  | report (line : Nat) (problem : Problem)
  /-- The lines of a quote without their marks; the first has the number `line`. -/
  | quote (line : Nat) (lines : List Text)
  /-- The lines of a definition list; the first has the number `line`. -/
  | definitions (line : Nat) (lines : List Text)

namespace Item

/-- A paragraph; without inline nodes there is none. -/
def paragraph (lines : List Text) : List Item :=
  let body := Inline.parse (Text.unlines lines)
  if body.isEmpty then [] else [.node (.paragraph body)]

/-- Removes the common indent of the lines that are not blank. -/
def stripIndent (lines : List Text) : List Text :=
  let common := Text.commonIndent lines
  lines.map fun l => (Text.dropBytes? common l).getD []

/-- What a fence with this argument and these lines shows. -/
def ofFence (fence : Fence) (arg : Option Text) (lines : List Text) : Node :=
  match fence with
  | .code => .codeBlock arg (stripIndent lines)
  | .verbatim => .verbatim lines
  | .dot => .diagram ⟨.dot (Text.unlines lines), arg⟩
  | .msc => .diagram ⟨.msc (Text.unlines lines), arg⟩
  | .htmlOnly => .passthrough .html (Text.unlines lines)
  | .xmlOnly => .passthrough .xml (Text.unlines lines)
  | .formula => .formula (Text.trim (Text.unlines lines)) true

/-- The path in front of some arguments, which may be quoted, and the text after it. -/
def splitPath (args : Text) : Text × Text :=
  let quoted? :=
    (Text.dropPrefix? ['"'] args).bind (Text.splitFirst? (· == '"'))
  quoted?.getD ((Text.splitFirst? Text.isSpace args).getD (args, []))

/-- A diagram that is kept in a file. -/
def diagramFile (args : Text) : Node :=
  let (path, rest) := splitPath (Text.trim args)
  let caption := Text.trim (Text.trimMatches '"' (Text.trim rest))
  .diagram ⟨.dotFile path, if caption.isEmpty then none else some caption⟩

end Item

namespace OpenBlock

/-- The items that a block leaves when it is closed. -/
def items : OpenBlock → List Item
  | .paragraph lines => Item.paragraph lines
  | .fence kind arg lines => [.node (Item.ofFence kind arg lines)]
  | .list draft => [.node draft.toNode]
  | .table draft => [.node (.table draft.toTable)]
  | .quote line lines => [.quote line lines]
  | .verbatim lines _ => [.node (.verbatim lines)]
  | .definitions line lines depth _ =>
    (if 0 < depth then [.report line .unclosedDefinitionList] else []) ++
      [.definitions line lines]

end OpenBlock

structure BlockReader where
  current : Option OpenBlock
  closed : List Item

namespace BlockReader

def empty : BlockReader := ⟨none, []⟩

def put (r : BlockReader) (items : List Item) : BlockReader :=
  { r with closed := r.closed ++ items }

/-- Closes the open block. -/
def close (r : BlockReader) : BlockReader :=
  match r.current with
  | some block => ⟨none, r.closed ++ block.items⟩
  | none => r

/-- Closes the open block and opens another. -/
def begin (r : BlockReader) (block : OpenBlock) : BlockReader :=
  { r.close with current := some block }

/-- Goes on with the open block. -/
def extend (r : BlockReader) (block : OpenBlock) : BlockReader :=
  { r with current := some block }

/-- The lines of a definition list after some text of line `line`. Texts of one line arrive
one by one and are joined. -/
def joinLine (lines : List Text) (lastLine line : Nat) (text : Text) : List Text :=
  if lastLine = line then lines.dropLast ++ [lines.getLast?.getD [] ++ text] else lines ++ [text]

/-- Goes on with a definition list, which ends where no list is left open. -/
def extendDefinitions (r : BlockReader) (start : Nat) (lines : List Text) (depth : Int)
    (line : Nat) : BlockReader :=
  let r := r.extend (.definitions start lines depth line)
  if depth ≤ 0 then r.close else r

/-- A line of text. -/
def plainLine (options : Options) (r : BlockReader) (indent : Nat) (text raw : Text) (line : Nat) :
    BlockReader :=
  let preformatted := Text.trimEnd ((Text.dropBytes? options.verbatimIndent raw).getD text)
  let begun :=
    if options.verbatimIndent ≤ indent then r.begin (.verbatim [preformatted] 0)
    else if DefinitionTag.startsList text then
      r.close.extendDefinitions line [raw] (DefinitionTag.balance raw) line
    else r.begin (.paragraph [text])
  match r.current with
  | some (.list draft) =>
    if !draft.afterBlank || (0 < indent && indent < options.verbatimIndent) then
      r.extend (.list (draft.addLine text))
    else begun
  | some (.paragraph lines) =>
    if DefinitionTag.startsList text then begun else r.extend (.paragraph (lines ++ [text]))
  | some (.verbatim lines blanks) =>
    if options.verbatimIndent ≤ indent then
      r.extend (.verbatim (lines ++ List.replicate blanks [] ++ [preformatted]) 0)
    else begun
  | _ => begun

/-- A list item. Outside lists and paragraphs an indented marker is preformatted text. -/
def itemLine (options : Options) (r : BlockReader) (marker : ListMarker) (indent : Nat)
    (text raw : Text) (line : Nat) : BlockReader :=
  let begun := r.begin (.list (.start marker indent text))
  match r.current with
  | some (.list draft) => r.extend (.list (draft.addItem marker indent text))
  | some (.paragraph _) => begun
  | _ =>
    if options.verbatimIndent ≤ indent then plainLine options r indent (Text.trim raw) raw line
    else begun

/-- A table row. A row that does not fit ends the table and is kept as text. -/
def rowLine (r : BlockReader) (cells : List Text) (raw : Text) (line : Nat) : BlockReader :=
  match r.current with
  | some (.table draft) =>
    match draft.addRow cells with
    | .ok draft => r.extend (.table draft)
    | .error found =>
      ((r.put [.report line (.tableWidth draft.columns found)]).close).put
        (Item.paragraph [Text.trim raw])
  | _ => r.begin (.table (.start cells))

/-- A separator. Except under the header of a table it is text. -/
def separatorLine (options : Options) (r : BlockReader) (alignments : List Alignment) (raw : Text)
    (line : Nat) : BlockReader :=
  let text := plainLine options r 0 (Text.trim raw) raw line
  match r.current with
  | some (.table draft) =>
    if draft.expectsSeparator then
      let reports := (draft.misaligned? alignments).toList.map fun found =>
        Item.report line (.tableWidth draft.columns found)
      (r.extend (.table (draft.align alignments))).put reports
    else text
  | _ => text

def blankLine (r : BlockReader) : BlockReader :=
  match r.current with
  | some (.list draft) => r.extend (.list draft.addBlank)
  | some (.verbatim lines blanks) => r.extend (.verbatim lines (blanks + 1))
  | _ => r.close

/-- A token inside a fence. -/
def insideFence (r : BlockReader) (fence : Fence) (arg : Option Text) (lines : List Text)
    (token : Token) : BlockReader :=
  match token.kind with
  | .fenceBody text => r.extend (.fence fence arg (lines ++ [text]))
  | .fenceClose closed isImplicit =>
    let reports :=
      if isImplicit then [Item.report token.line (.unclosedFence closed.name)] else []
    (r.put reports).close
  | _ => r

/-- A token where no fence and no definition list is open. -/
def outside (options : Options) (r : BlockReader) (token : Token) : BlockReader :=
  match token.kind with
  | .blank => r.blankLine
  | .fenceOpen fence arg => r.begin (.fence fence arg [])
  | .fenceBody _ | .fenceClose _ _ => r
  | .listItem marker indent text => itemLine options r marker indent text token.raw token.line
  | .tableRow cells => r.rowLine cells token.raw token.line
  | .tableSeparator alignments => separatorLine options r alignments token.raw token.line
  | .quote _ text =>
    match r.current with
    | some (.quote line lines) => r.extend (.quote line (lines ++ [text]))
    | _ => r.begin (.quote token.line [text])
  | .text indent text => plainLine options r indent text token.raw token.line
  | .command name args =>
    if name = "dotfile".toList then r.close.put [.node (Item.diagramFile args)]
    else plainLine options r 0 (Text.trim token.raw) token.raw token.line

def feed (options : Options) (r : BlockReader) (next : Token) : BlockReader :=
  match r.current with
  | some (.fence fence arg lines) => r.insideFence fence arg lines next
  | some (.definitions start lines depth lastLine) =>
    let text := if next.isBlank then [] else next.raw
    r.extendDefinitions start (joinLine lines lastLine next.line text)
      (depth + DefinitionTag.balance text) next.line
  | _ => outside options r next

/-- Everything read so far, with the open block closed. -/
def items (r : BlockReader) : List Item := r.close.closed

/-- The items of some tokens. -/
def read (options : Options) (tokens : List Token) : List Item :=
  (tokens.foldl (feed options) empty).items

end BlockReader

end DocComment
