import DocComment.Proofs.Block.Step
import DocComment.Proofs.Block.Written
import DocComment.Proofs.Inline.Begins
import DocComment.Proofs.Line.Uncut
import DocComment.Proofs.Table.Pieces
import Mathlib.Data.List.ReduceOption

/-!
# Lines of table rows

A line that is a table row goes into the table that is open there or, without one, starts a table.
If it does not fit it becomes a paragraph, and no table is open after it. So every line shows up
once, in the order of the lines.
-/

set_option autoImplicit false

namespace DocComment

/-! ## What the lines become -/

/-- What is shown of a cell. -/
structure ShownCell where
  span : Nat
  mergedUp : Bool
  body : List Node

def TableCell.shown (c : TableCell Node) : ShownCell := ⟨c.span, c.mergedUp, c.body⟩

/-- What a line of a table becomes: a row, which has a number in its table, or text. -/
inductive RowEntry where
  | row (number : Nat) (cells : List ShownCell)
  | text (body : List Node)

/-- The lines that a node stands for: a table for its rows and a paragraph for one. -/
def Node.rowEntries : Node → List RowEntry
  | .table t => t.rows.mapIdx fun n row => .row n (row.cells.map TableCell.shown)
  | .paragraph body => [.text body]
  | _ => []

/-- The columns of a table that is open, and how many rows it has. -/
structure OpenTable where
  columns : Nat
  rows : Nat

namespace RowLine

/-- The columns of a line in a table with some columns: one for each piece that counts. -/
def width (row : RowLine) (columns : Nat) : Nat := (RowPieces.kept columns row.cells).length

/-- The table that is open after a line. -/
def next (open? : Option OpenTable) (row : RowLine) : Option OpenTable :=
  match open? with
  | none => some ⟨row.cells.length, 1⟩
  | some table =>
    if row.width table.columns = table.columns then some ⟨table.columns, table.rows + 1⟩ else none

/-- What is shown of a cell with or without rows above it. One that holds only a caret continues
the cell above. -/
def shown (below : Bool) (cell : Nat × Text) : ShownCell :=
  let merged := cell.2 == ['^'] && below
  ⟨cell.1, merged, if merged then [] else Inline.parse cell.2⟩

/-- What a line becomes where a table may be open. -/
def entry (open? : Option OpenTable) (row : RowLine) : RowEntry :=
  match open? with
  | none => .row 0 ((RowPieces.cells row.cells).map (shown false))
  | some table =>
    if row.width table.columns = table.columns then
      .row table.rows ((RowPieces.cells (RowPieces.kept table.columns row.cells)).map (shown true))
    else .text (Inline.parse (Text.trim row.text))

/-- What is reported about a line. -/
def misfit? (line : Nat) (open? : Option OpenTable) (row : RowLine) : Option Diagnostic :=
  open?.bind fun table =>
    if row.width table.columns = table.columns then none
    else some ⟨.tableWidth table.columns (row.width table.columns), none, some line⟩

/-- The table that is open in front of the line with this number. -/
def openBefore (rows : List RowLine) (line : Nat) : Option OpenTable :=
  (rows.take line).foldl next none

end RowLine

/-! ## Items without lines inside -/

namespace Item

/-- Whether an item is a report or a node that stands for some rows. -/
def IsRows : Item → Prop
  | .node (.table table) => table.rows ≠ []
  | .node (.paragraph _) => True
  | .report _ _ => True
  | _ => False

def node? : Item → Option Node
  | .node n => some n
  | _ => none

def report? : Item → Option Diagnostic
  | .report line problem => some ⟨problem, none, some line⟩
  | _ => none

def rowEntries (item : Item) : List RowEntry := (item.node?.map Node.rowEntries).getD []

theorem completeAll_rows {items : List Item} (flat : ∀ item ∈ items, item.IsRows)
    (inner : BlockParser) :
    completeAll inner items = some ⟨items.filterMap node?, items.filterMap report?⟩ := by
  induction items with
  | nil => rfl
  | cons item rest ih =>
    obtain ⟨here, later⟩ := List.forall_mem_cons.mp flat
    obtain ⟨blocks, all, joined⟩ := Option.map_eq_some_iff.mp (ih later)
    rw [completeAll, List.mapM_cons, all]
    cases item with
    | node n =>
      simp [complete, Blocks.concat, joined, Blocks.append, List.filterMap_cons, node?, report?]
    | report line problem =>
      simp [complete, Blocks.concat, joined, Blocks.append, List.filterMap_cons, node?, report?]
    | quote line lines => exact here.elim
    | definitions line lines => exact here.elim

theorem flatMap_rowEntries (items : List Item) :
    (items.filterMap node?).flatMap Node.rowEntries = items.flatMap rowEntries := by
  induction items with
  | nil => rfl
  | cons item rest ih =>
    rw [List.flatMap_cons, ← ih, rowEntries]
    cases shown : item.node? with
    | none => simp [shown]
    | some n => simp [shown]

end Item

/-! ## One line -/

namespace TableDraft

theorem toCell_shown {pieces : List Text} (below : Bool) :
    ((cells pieces).map fun c => (toCell { c with mergedUp := c.mergedUp && below }).shown) =
      (RowPieces.cells pieces).map (RowLine.shown below) := by
  rw [RowPieces.draft_cells_eq, List.map_map]
  rfl

/-- The rows of an open table as they will be shown. -/
def entries (draft : TableDraft) : List RowEntry :=
  (Node.table draft.toTable).rowEntries

theorem entries_eq (draft : TableDraft) : draft.entries = draft.rows.mapIdx fun n row =>
    .row n (row.cells.map fun c => (toCell c).shown) := by
  apply List.ext_getElem?
  intro n
  simp only [entries, Node.rowEntries, toTable, List.getElem?_mapIdx, List.getElem?_map,
    Option.map_map]
  congr 1
  funext row
  simp [TableCell.shown]

/-- What is shown of a cell does not depend on the rows that it covers. -/
theorem shown_lengthen (more : Nat → Nat) (cells : List (TableCell Char)) :
    (lengthen more cells).map (fun c => (toCell c).shown) =
      cells.map fun c => (toCell c).shown := by
  apply List.ext_getElem?
  intro i
  rw [List.getElem?_map, List.getElem?_map, getElem?_lengthen, Option.map_map]
  rfl

/-- Where there is a cell above every column or above none, cells are merged up as they ask. -/
theorem settle_eq (above : Nat → Option (Nat × Nat)) {below : Bool} (column : Nat)
    {cells : List (TableCell Char)} (spans : ∀ c ∈ cells, 0 < c.span)
    (known : ∀ n < column + TableCell.width cells, (above n).isSome = below) :
    settle above column cells = cells.map fun c => { c with mergedUp := c.mergedUp && below } := by
  induction cells generalizing column with
  | nil => rfl
  | cons c rest ih =>
    obtain ⟨here, later⟩ := List.forall_mem_cons.mp spans
    rw [TableCell.width] at known
    rw [settle, List.map_cons, known column (by omega), ih _ later fun n lt => known n (by omega)]

theorem Grid.entries_append {draft : TableDraft} (grid : draft.Grid) (below : Bool)
    (pieces : List Text) (known : ∀ n < pieces.length, (draft.above n).isSome = below) :
    (draft.append (cells pieces)).entries = draft.entries ++
      [.row draft.rows.length ((RowPieces.cells pieces).map (RowLine.shown below))] := by
  have settled := settle_eq draft.above 0 (fun c mem => (fresh_cells pieces c mem).span)
    (by simpa [width_cells] using known)
  rw [entries_eq, entries_eq, grid.append_eq, settled]
  dsimp only
  rw [List.mapIdx_append]
  congr 1
  · apply List.ext_getElem?
    intro n
    rw [List.getElem?_mapIdx, List.getElem?_mapIdx, getElem?_raise, Option.map_map]
    congr 1
    funext row
    simp [shown_lengthen]
  · simp [← toCell_shown, Function.comp_def]

theorem addRow_row (draft : TableDraft) (row : RowLine) :
    draft.addRow row.cells =
      if row.width draft.columns = draft.columns then
        .ok (draft.append (cells (RowPieces.kept draft.columns row.cells)))
      else .error (row.width draft.columns) := by
  rw [addRow_eq, RowPieces.fitted_eq, width_cells]
  rfl

theorem Grid.above_isSome {draft : TableDraft} (grid : draft.Grid) (nonempty : draft.rows ≠ [])
    {n : Nat} (inside : n < draft.columns) : (draft.above n).isSome :=
  TableRow.above?_isSome grid.widths grid.top inside (List.length_pos_iff.mpr nonempty) nonempty

end TableDraft

namespace BlockReader

open TableDraft

/-- Whether the block that is open is the given table, or there is none if none is given. -/
def Has (r : BlockReader) : Option OpenTable → Prop
  | none => r.current = none
  | some table => ∃ draft, r.current = some (.table draft) ∧ draft.Grid ∧ draft.rows ≠ [] ∧
      draft.columns = table.columns ∧ draft.rows.length = table.rows

/-- What has come of some lines so far. -/
structure Shows (r : BlockReader) (open? : Option OpenTable) (entries : List RowEntry)
    (diagnostics : List Diagnostic) : Prop where
  table : r.Has open?
  rows : ∀ item ∈ r.items, item.IsRows
  entries : r.items.flatMap Item.rowEntries = entries
  diagnostics : r.items.filterMap Item.report? = diagnostics

variable {options : Options} {r : BlockReader} {entries : List RowEntry}
  {diagnostics : List Diagnostic} {row : RowLine}

theorem shows_table {closed : List Item} {draft : TableDraft}
    (rows : ∀ item ∈ closed, item.IsRows) (grid : draft.Grid) (nonempty : draft.rows ≠ []) :
    (⟨some (.table draft), closed⟩ : BlockReader).Shows (some ⟨draft.columns, draft.rows.length⟩)
      (closed.flatMap Item.rowEntries ++ draft.entries) (closed.filterMap Item.report?) where
  table := ⟨draft, rfl, grid, nonempty, rfl, rfl⟩
  rows := by
    have last : (Item.node (.table draft.toTable)).IsRows := by
      simpa [Item.IsRows, toTable] using nonempty
    simpa [items_eq, OpenBlock.items, or_imp, forall_and] using ⟨rows, last⟩
  entries := by
    simp [items_eq, OpenBlock.items, Item.rowEntries, Item.node?, TableDraft.entries]
  diagnostics := by
    simp [items_eq, OpenBlock.items, Item.report?]

theorem Shows.starts (shows : r.Shows none entries diagnostics) (line : Nat) :
    (feed options r ⟨line, .tableRow row.cells, row.text⟩).Shows (row.next none)
      (entries ++ [row.entry none]) diagnostics := by
  have current : r.current = none := shows.table
  have first := grid_empty (TableCell.width (TableDraft.cells row.cells))
  have fresh := fresh_cells row.cells
  have grid : (start row.cells).Grid := first.append rfl fresh
  have columns : (start row.cells).columns = row.cells.length :=
    (first.columns_append _).trans (width_cells row.cells)
  have single : (start row.cells).rows.length = 1 := first.length_append _
  have shown : (start row.cells).entries = [row.entry none] :=
    first.entries_append false row.cells fun n _ => by
      simp [TableDraft.above, TableRow.above?]
  have fed : feed options r ⟨line, .tableRow row.cells, row.text⟩ =
      ⟨some (.table (start row.cells)), r.closed⟩ := by
    simp [BlockReader.feed, current, outside, rowLine, begin, close]
  have items : r.items = r.closed := by simp [items_eq, current]
  have rows := shows.rows
  rw [items] at rows
  have table := shows_table rows grid (List.ne_nil_of_length_eq_add_one single)
  rw [columns, single, shown, ← items, shows.entries, shows.diagnostics] at table
  rw [fed, ← items]
  exact table

theorem Shows.joins {table : OpenTable} (shows : r.Shows (some table) entries diagnostics)
    (fits : row.width table.columns = table.columns) (line : Nat) :
    (feed options r ⟨line, .tableRow row.cells, row.text⟩).Shows (row.next (some table))
      (entries ++ [row.entry (some table)]) diagnostics := by
  obtain ⟨draft, current, grid, nonempty, columns, number⟩ := shows.table
  rw [← columns] at fits
  let pieces := RowPieces.kept draft.columns row.cells
  have fresh : ∀ c ∈ cells pieces, Fresh c := fresh_cells pieces
  have shown := grid.entries_append true pieces fun n lt =>
    grid.above_isSome nonempty (by rwa [← fits])
  have longer := grid.length_append (cells pieces)
  have fed : feed options r ⟨line, .tableRow row.cells, row.text⟩ =
      ⟨some (.table (draft.append (cells pieces))), r.closed⟩ := by
    simp [BlockReader.feed, current, outside, rowLine, addRow_row, fits, extend, pieces]
  have items : r.items = r.closed ++ [.node (.table draft.toTable)] := by
    simp [items_eq, current, OpenBlock.items]
  have before : r.closed.flatMap Item.rowEntries ++ draft.entries = entries ∧
      r.closed.filterMap Item.report? = diagnostics := by
    rw [← shows.entries, ← shows.diagnostics, items]
    simp [Item.rowEntries, Item.node?, TableDraft.entries, Item.report?]
  have rows := shows.rows
  rw [items] at rows
  have table := shows_table (fun item mem => rows item (List.mem_append_left _ mem))
    (grid.append ((width_cells pieces).trans fits) fresh)
    (List.ne_nil_of_length_eq_add_one longer)
  rw [grid.columns_append, longer, shown, ← List.append_assoc, before.1, before.2] at table
  rw [fed]
  simpa [RowLine.next, RowLine.entry, ← columns, ← number, fits] using table

theorem Shows.refuses {table : OpenTable} (shows : r.Shows (some table) entries diagnostics)
    (misfit : row.width table.columns ≠ table.columns) (line : Nat) :
    (feed options r ⟨line, .tableRow row.cells, row.text⟩).Shows none
      (entries ++ [.text (Inline.parse (Text.trim row.text))])
      (diagnostics ++
        [⟨.tableWidth table.columns (row.width table.columns), none, some line⟩]) := by
  obtain ⟨draft, current, -, -, columns, -⟩ := shows.table
  rw [← columns] at misfit ⊢
  obtain ⟨t, trimmed⟩ := row.trim_text
  have shown : Inline.parse (Text.trim row.text) ≠ [] := by
    rw [trimmed]
    exact Inline.parse_pipe t
  have paragraph : Item.paragraph [Text.trim row.text] =
      [.node (.paragraph (Inline.parse (Text.trim row.text)))] := by
    simp [Item.paragraph, Text.unlines, shown]
  have fed : feed options r ⟨line, .tableRow row.cells, row.text⟩ = ⟨none, r.closed ++
      [.report line (.tableWidth draft.columns (row.width draft.columns)),
        .node (.table draft.toTable), .node (.paragraph (Inline.parse (Text.trim row.text)))]⟩ := by
    simp [BlockReader.feed, current, outside, rowLine, addRow_row, misfit, put, close,
      OpenBlock.items, paragraph]
  have items : r.items = r.closed ++ [.node (.table draft.toTable)] := by
    simp [items_eq, current, OpenBlock.items]
  have rows := shows.rows
  rw [items, List.forall_mem_append, List.forall_mem_singleton] at rows
  rw [fed]
  constructor
  · rfl
  · simpa [items_eq, or_imp, forall_and, Item.IsRows] using rows
  · rw [← shows.entries, items]
    simp [items_eq, Item.rowEntries, Item.node?, Node.rowEntries]
  · rw [← shows.diagnostics, items]
    simp [items_eq, List.filterMap_cons, Item.report?]

/-- A line goes into the open table, starts one or ends one. -/
theorem Shows.feed {open? : Option OpenTable} (shows : r.Shows open? entries diagnostics)
    (options : Options) (row : RowLine) (line : Nat) :
    (feed options r ⟨line, .tableRow row.cells, row.text⟩).Shows (row.next open?)
      (entries ++ [row.entry open?]) (diagnostics ++ (row.misfit? line open?).toList) := by
  cases open? with
  | none => simpa [RowLine.misfit?] using shows.starts line
  | some table =>
    by_cases fits : row.width table.columns = table.columns
    · simpa [RowLine.misfit?, fits] using shows.joins fits line
    · simpa [RowLine.misfit?, RowLine.next, RowLine.entry, fits] using shows.refuses fits line

theorem reduceOption_cons {α : Type} (a : Option α) (l : List (Option α)) :
    (a :: l).reduceOption = a.toList ++ l.reduceOption := by
  cases a <;> rfl

/-- Each line shows up behind those before it. -/
theorem Shows.feedAll {open? : Option OpenTable} (shows : r.Shows open? entries diagnostics)
    (options : Options) (rows : List RowLine) (line : Nat) :
    ((rows.mapIdx fun i row => (⟨i + line, .tableRow row.cells, row.text⟩ : Token)).foldl
      (BlockReader.feed options) r).Shows (rows.foldl RowLine.next open?)
        (entries ++ rows.mapIdx fun i row => row.entry ((rows.take i).foldl RowLine.next open?))
        (diagnostics ++ (rows.mapIdx fun i row =>
          row.misfit? (i + line) ((rows.take i).foldl RowLine.next open?)).reduceOption) := by
  induction rows generalizing r open? entries diagnostics line with
  | nil => simpa using shows
  | cons row rest ih =>
    have number (i : Nat) : i + 1 + line = i + (line + 1) := by omega
    have later := ih (shows.feed options row line) (line + 1)
    simp only [List.append_assoc, List.singleton_append] at later
    simp only [List.mapIdx_cons, List.foldl_cons, List.take_succ_cons, List.take_zero,
      List.foldl_nil, Nat.zero_add, reduceOption_cons, number]
    exact later

end BlockReader

/-- Lines of table rows give tables and paragraphs, which stand for the lines in their order. A line
is a row of the table that is open there, or of one that it starts; where it does not fit it is text
and is reported, once, and no table is open after it. -/
theorem Blocks.parse_rowLines (options : Options) (rows : List RowLine) :
    ∃ nodes, parse options (rows.map RowLine.text) = some ⟨nodes,
        (rows.mapIdx fun i row => row.misfit? i (RowLine.openBefore rows i)).reduceOption⟩ ∧
      (∀ node ∈ nodes, (∃ table, node = .table table ∧ table.rows ≠ []) ∨
        ∃ body, node = .paragraph body) ∧
      nodes.flatMap Node.rowEntries =
        rows.mapIdx fun i row => row.entry (RowLine.openBefore rows i) := by
  let tokens := rows.mapIdx fun i row => (⟨i, .tableRow row.cells, row.text⟩ : Token)
  let items := BlockReader.read options tokens
  have start : BlockReader.empty.Shows none [] [] := ⟨rfl, by simp [BlockReader.items_eq,
    BlockReader.empty], rfl, rfl⟩
  have shows := start.feedAll options rows 0
  simp only [Nat.add_zero, List.nil_append] at shows
  have flat : ∀ item ∈ items, item.IsRows := shows.rows
  refine ⟨items.filterMap Item.node?, ?_, ?_, ?_⟩
  · have levels : ∃ n, Blocks.levels (rows.map RowLine.text) = n + 1 :=
      Nat.exists_eq_succ_of_ne_zero (Nat.ne_of_gt (Nat.two_pow_pos _))
    obtain ⟨n, levels⟩ := levels
    rw [parse, levels, parseWithin, RowLine.tokenize]
    dsimp only
    rw [Item.completeAll_rows flat, show items.filterMap Item.report? = _ from shows.diagnostics]
    rfl
  · intro node mem
    obtain ⟨item, known, shown⟩ := List.mem_filterMap.mp mem
    have rows := flat item known
    cases item with
    | node n =>
      obtain rfl : n = node := by simpa [Item.node?] using shown
      cases n with
      | table table => exact .inl ⟨table, rfl, rows⟩
      | paragraph body => exact .inr ⟨body, rfl⟩
      | _ => exact rows.elim
    | _ => cases shown
  · rw [Item.flatMap_rowEntries]
    exact shows.entries

example (cells : List Phrase) (nonempty : cells ≠ []) :
    ∃ row : RowLine, row.text = PlainLine.row cells := by
  have unmarked := PlainLine.row_unmarked cells
  have kind := Token.Kind.ofText_row nonempty
  have shown : Text.isBlank (PlainLine.row cells) = false := rfl
  have tokens : tokenize [PlainLine.row cells] = .ok [Token.plain 0 (PlainLine.row cells)] := by
    rw [tokenize, ControlCharacter.find?_eq_none (by simpa using fun c mem => (unmarked c mem).2),
      Token.ofLines_unmarked unmarked]
    rfl
  rw [Token.plain, shown, kind] at tokens
  exact ⟨⟨_, _, _, tokens⟩, rfl⟩

end DocComment
