import DocComment.Block.Reader
import DocComment.Line.Tokenizer

/-!
# Blocks

The lines inside a quote or a definition are read like those of a comment, so blocks nest.
Nothing in the lines bounds how deep: a definition list collects what it reads of a fence
twice, and its lines may grow from level to level. Hence reading comes with a number of levels,
and has no result if the blocks nest deeper.
-/

set_option autoImplicit false

namespace DocComment

structure Blocks where
  nodes : List Node := []
  diagnostics : List Diagnostic := []

namespace Blocks

def append (a b : Blocks) : Blocks := ⟨a.nodes ++ b.nodes, a.diagnostics ++ b.diagnostics⟩

/-- Several results one after another. -/
def concat : List Blocks → Blocks
  | [] => {}
  | first :: rest => first.append (concat rest)

end Blocks

/-- A way to read the lines inside a block. -/
abbrev BlockParser := List Text → Option Blocks

namespace Definition

/-- The definitions of one entry. -/
def completeEntry (inner : BlockParser) (entry : Entry) :
    Option (TermEntry Node × List Diagnostic) := do
  let bodies ← entry.bodies.mapM fun body => inner (bodyLines body)
  return (⟨Inline.parse entry.term, bodies.map Blocks.nodes⟩, bodies.flatMap Blocks.diagnostics)

/-- The definition list in some lines. -/
def parse (inner : BlockParser) (lines : List Text) : Option (Node × List Diagnostic) := do
  let entries ← (entriesOf (partsOf (Text.unlines lines))).mapM (completeEntry inner)
  return (.definitionList (entries.map Prod.fst), entries.flatMap Prod.snd)

end Definition

namespace Item

/-- Reads what is inside an item. -/
def complete (inner : BlockParser) : Item → Option Blocks
  | .node n => some ⟨[n], []⟩
  | .report line problem => some ⟨[], [⟨problem, none, some line⟩]⟩
  | .quote line lines =>
    (inner lines).map fun body =>
      ⟨[.blockQuote body.nodes], body.diagnostics.map (Diagnostic.shift line)⟩
  | .definitions line lines =>
    (Definition.parse inner lines).map fun (list, diagnostics) =>
      ⟨[list], diagnostics.map (Diagnostic.shift line)⟩

def completeAll (inner : BlockParser) (items : List Item) : Option Blocks :=
  (items.mapM (complete inner)).map Blocks.concat

end Item

namespace Blocks

/-- The blocks in some lines, if they nest at most `levels` deep. Lines with a control
character are kept as one paragraph. -/
def parseWithin (options : Options) : Nat → BlockParser
  | 0, _ => none
  | levels + 1, lines =>
    match tokenize lines with
    | .error _ => some ⟨[.paragraph (Inline.parse (Text.unlines lines))], []⟩
    | .ok tokens =>
      Item.completeAll (parseWithin options levels) (BlockReader.read options tokens)

/-- How deep blocks may nest. Every byte can double what a definition list collects. -/
def levels (lines : List Text) : Nat := Nat.pow 2 (Text.bytes lines.flatten)

/-- The blocks in some lines. -/
def parse (options : Options) : BlockParser :=
  fun lines => parseWithin options (levels lines) lines

end Blocks

end DocComment
