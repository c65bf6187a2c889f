import DocComment.Inline.Nodes

/-!
# Tables

The first row fixes the number of columns. An empty cell widens the one before it, and a
cell that holds only `^` continues the one above it, which then covers one more row. Until
the table is finished its cells hold text.
-/

set_option autoImplicit false

namespace DocComment

/-- The text of a cell that continues the one above. -/
def mergeUpMark : Text := ['^']

/-- A table that is still open. -/
structure TableDraft where
  columns : Nat
  alignment : Option (List Alignment)
  rows : List (TableRow Char)
  /-- For each column the row and the cell that covered it last. -/
  origins : List (Option (Nat × Nat))

namespace TableDraft

def cell (span : Nat) (raw : Text) : TableCell Char :=
  let text := Text.trim raw
  ⟨span, 1, text == mergeUpMark, text⟩

/-- The number of empty pieces in front, and the cells after them. -/
def mergeEmpty : List Text → Nat × List (TableCell Char)
  | [] => (0, [])
  | raw :: rest =>
    let (n, cells) := mergeEmpty rest
    if raw.isEmpty then (n + 1, cells) else (0, cell (n + 1) raw :: cells)

/-- The cells of a row. Empty pieces in front make one empty cell. -/
def cells (raw : List Text) : List (TableCell Char) :=
  match mergeEmpty raw with
  | (0, cells) => cells
  | (n + 1, cells) => cell (n + 1) [] :: cells

/-- One more row for the cell at this place. -/
def extendDown (place : Nat × Nat) (rows : List (TableRow Char)) : List (TableRow Char) :=
  rows.modify place.1 fun row =>
    { row with cells := row.cells.modify place.2 fun c => { c with rowSpan := c.rowSpan + 1 } }

/-- Marks the columns from `column` on that a cell at `place` covers. -/
def cover (place : Nat × Nat) (column span : Nat) (origins : List (Option (Nat × Nat))) :
    List (Option (Nat × Nat)) :=
  origins.mapIdx fun i origin =>
    if column ≤ i ∧ i < column + span then some place else origin

/-- Places the cells of row number `row`, from the cell number `index` at `column` on. A cell
with nothing above it to continue is a cell of its own. -/
def place (row : Nat) : Nat → Nat → List (TableCell Char) → TableDraft →
    List (TableCell Char) × TableDraft
  | _, _, [], draft => ([], draft)
  | index, column, c :: rest, draft =>
    let origin? := if c.mergedUp then draft.origins[column]?.join else none
    let (c, draft) :=
      match origin? with
      | some origin => (c, { draft with rows := extendDown origin draft.rows })
      | none =>
        ({ c with mergedUp := false },
          { draft with origins := cover (row, index) column c.span draft.origins })
    let (placed, draft) := place row (index + 1) (column + c.span) rest draft
    (c :: placed, draft)

def append (draft : TableDraft) (cells : List (TableCell Char)) : TableDraft :=
  let (placed, draft) := place draft.rows.length 0 0 cells draft
  { draft with rows := draft.rows ++ [⟨false, placed⟩] }

def start (raw : List Text) : TableDraft :=
  let first := cells raw
  let columns := TableCell.width first
  append ⟨columns, none, [], List.replicate columns none⟩ first

/-- Whether the next line may be the separator under the header. -/
def expectsSeparator (draft : TableDraft) : Bool :=
  draft.alignment.isNone && draft.rows.length == 1

/-- Takes a separator; missing columns are aligned left. -/
def align (draft : TableDraft) (alignments : List Alignment) : TableDraft :=
  let missing := List.replicate (draft.columns - alignments.length) .left
  { draft with
    alignment := some (alignments.take draft.columns ++ missing)
    rows := draft.rows.modify 0 fun row => { row with header := true } }

/-- The width of a separator that does not fit the table. -/
def misaligned? (draft : TableDraft) (alignments : List Alignment) : Option Nat :=
  if alignments.length = draft.columns then none else some alignments.length

/-- Drops blank cells past the last column; the cells come last first. -/
def dropPadding (columns : Nat) : List (TableCell Char) → List (TableCell Char)
  | [] => []
  | last :: rest =>
    if columns < TableCell.width (last :: rest) ∧ last.span = 1 ∧ last.body = [] then
      dropPadding columns rest
    else last :: rest

/-- Takes a row, or refuses it with its width if that does not fit the table. -/
def addRow (draft : TableDraft) (raw : List Text) : Except Nat TableDraft :=
  let cells := (dropPadding draft.columns (cells raw).reverse).reverse
  let width := TableCell.width cells
  if width = draft.columns then .ok (draft.append cells) else .error width

def toCell (c : TableCell Char) : TableCell Node :=
  ⟨c.span, c.rowSpan, c.mergedUp, if c.mergedUp then [] else Inline.parse c.body⟩

def toTable (draft : TableDraft) : Table Node where
  alignment := draft.alignment.getD (List.replicate draft.columns .left)
  rows := draft.rows.map fun row => ⟨row.header, row.cells.map toCell⟩

end TableDraft

end DocComment
