import DocComment.Block.Blocks
import DocComment.Proofs.Block.Written

/-!
# Written blocks are read back

Before each block nothing is open, or a list that a blank line has ended and that the block does
not go on with. From such a state the lines of a block leave that block open behind the items so
far, and so document after document.
-/

set_option autoImplicit false

namespace DocComment

/-! ## List levels -/

namespace ListDraft

/-- The levels that are open inside an item at `depth`. -/
def levelsTo : Nat → List Nat
  | 0 => [0]
  | depth + 1 => 2 * (depth + 1) :: levelsTo depth

theorem levelsTo_eq (depth : Nat) : ∃ rest, levelsTo depth = 2 * depth :: rest := by
  cases depth with
  | zero => exact ⟨[], rfl⟩
  | succ depth => exact ⟨levelsTo depth, rfl⟩

theorem length_levelsTo (depth : Nat) : (levelsTo depth).length = depth + 1 := by
  induction depth with
  | zero => rfl
  | succ depth ih => rw [levelsTo, List.length_cons, ih]

theorem leave_levelsTo (depth next : Nat) :
    leave (2 * next) (levelsTo depth) = levelsTo (min depth next) := by
  induction depth with
  | zero => simp [levelsTo, leave]
  | succ depth ih =>
    obtain ⟨rest, open'⟩ := levelsTo_eq depth
    rw [levelsTo, open', leave, ← open']
    split
    · rw [ih]
      congr 1
      omega
    · rw [← levelsTo]
      congr 1
      omega

theorem enter_levelsTo {depth next : Nat} (climb : next ≤ depth + 1) :
    enter (2 * next) (levelsTo depth) = levelsTo next := by
  obtain ⟨rest, left⟩ := levelsTo_eq (min depth next)
  rw [enter, leave_levelsTo, left]
  dsimp only
  split
  · rw [← left]
    congr 1
    omega
  · have same : min depth next = depth ∧ next = depth + 1 := by omega
    rw [← left, same.1, same.2, levelsTo]

end ListDraft

def PlainItem.draft (item : PlainItem) : DraftItem := ⟨item.depth, item.ordered, [item.body.text]⟩

theorem PlainItem.itemOf_draft (item : PlainItem) :
    ListDraft.itemOf item.draft = item.listItem := by
  rw [ListDraft.itemOf, draft, item.body.parse_line]
  rfl

/-! ## Reading plain lines -/

namespace BlockReader

/-- Reads the lines from number `line` on. -/
def readLines (line : Nat) (r : BlockReader) (lines : List Text) : BlockReader :=
  (Token.ofLines line none lines).foldl (feed {}) r

@[simp]
theorem readLines_nil (line : Nat) (r : BlockReader) : r.readLines line [] = r := rfl

theorem readLines_cons {t : Text} (h : t.Unmarked) (line : Nat) (r : BlockReader)
    (rest : List Text) :
    r.readLines line (t :: rest) = (r.feed {} (Token.plain line t)).readLines (line + 1) rest := by
  rw [readLines, Token.ofLines_unmarked h, List.foldl_cons]
  rfl

theorem readLines_append {a : List Text} (h : ∀ t ∈ a, t.Unmarked) (line : Nat) (r : BlockReader)
    (b : List Text) :
    r.readLines line (a ++ b) = (r.readLines line a).readLines (line + a.length) b := by
  induction a generalizing line r with
  | nil => simp
  | cons t a ih =>
    obtain ⟨here, later⟩ := List.forall_mem_cons.1 h
    rw [List.cons_append, readLines_cons here, readLines_cons here, ih later, List.length_cons,
      Nat.add_right_comm, Nat.add_assoc]

/-- Whether a new block starts on the next line, which is a list item only if no list is open. -/
def Ready (isList : Bool) (r : BlockReader) : Prop :=
  r.current = none ∨
    isList = false ∧ ∃ draft : ListDraft, r.current = some (.list draft) ∧ draft.afterBlank = true

theorem feed_of_ready {isList : Bool} {r : BlockReader} (ready : r.Ready isList) (token : Token) :
    r.feed {} token = outside {} r token := by
  obtain none | ⟨-, draft, list, -⟩ := ready
  · simp [feed, none]
  · simp [feed, list]

/-! ### Paragraphs -/

theorem startsList_phrase (p : Phrase) : DefinitionTag.startsList p.text = false := by
  obtain ⟨c, rest, hp, hc⟩ := p.head
  have angle : ('<'.toLower == c.toLower) = false := by
    have small : ∀ n < 123, (Char.ofNat n).isAlpha →
        ('<'.toLower == (Char.ofNat n).toLower) = false := by decide
    have := small c.toNat (by have := Text.isAlpha_range hc; omega)
    rw [Char.ofNat_toNat] at this
    exact this hc
  have tag : DefinitionTag.openList = ['<', 'd', 'l', '>'] := rfl
  rw [DefinitionTag.startsList, p.tight.trimStart, hp, tag, Text.startsWithIgnoringCase, angle,
    Bool.false_and]

theorem plain_phrase (line : Nat) (p : Phrase) :
    Token.plain line p.text = ⟨line, .text 0 p.text, p.text⟩ := by
  simp [Token.plain, p.tight.isBlank, Token.Kind.ofText_phrase]

theorem feed_phrase {r : BlockReader} (ready : r.Ready false) (p : Phrase) (line : Nat) :
    r.feed {} ⟨line, .text 0 p.text, p.text⟩ = ⟨some (.paragraph [p.text]), r.items⟩ := by
  rw [feed_of_ready ready]
  obtain none | ⟨-, draft, list, blank⟩ := ready
  · simp [outside, plainLine, none, startsList_phrase, begin, items]
  · simp [outside, plainLine, list, blank, startsList_phrase, begin, items]

theorem readLines_phrases {closed : List Item} {before : List Text} (phrases : List Phrase)
    (line : Nat) :
    readLines line ⟨some (.paragraph before), closed⟩ (phrases.map Phrase.text) =
      ⟨some (.paragraph (before ++ phrases.map Phrase.text)), closed⟩ := by
  induction phrases generalizing line before with
  | nil => simp
  | cons p rest ih =>
    have next : feed {} ⟨some (.paragraph before), closed⟩ ⟨line, .text 0 p.text, p.text⟩ =
        ⟨some (.paragraph (before ++ [p.text])), closed⟩ := by
      simp [feed, outside, plainLine, startsList_phrase, extend]
    rw [List.map_cons, readLines_cons p.unmarked, plain_phrase, next, ih]
    simp

theorem readLines_passage {r : BlockReader} (ready : r.Ready false) (p : Passage) (line : Nat) :
    r.readLines line p.lines = ⟨some (.paragraph p.lines), r.items⟩ := by
  rw [Passage.lines, List.map_cons, readLines_cons p.first.unmarked, plain_phrase,
    feed_phrase ready, readLines_phrases]
  rfl

/-! ### Lists -/

theorem plain_item (line : Nat) (item : PlainItem) :
    ∃ marker, marker.isOrdered = item.ordered ∧ Token.plain line item.line =
      ⟨line, .listItem marker (2 * item.depth) item.body.text, item.line⟩ := by
  obtain ⟨marker, same, kind⟩ := Token.Kind.ofText_item item.depth item.ordered item.body
  obtain ⟨c, rest, hp, hc⟩ := item.body.head
  have text : Text.isBlank item.line = false := by
    refine List.all_eq_false.2 ⟨c, ?_, by simp [Text.isSpace_of_isAlpha hc]⟩
    simp [PlainItem.line, PlainLine.item, hp]
  refine ⟨marker, same, ?_⟩
  rw [Token.plain, if_neg (by simp [text])]
  exact congrArg (Token.mk line · item.line) kind

theorem feed_item {draft : ListDraft} {closed : List Item} {depth : Nat}
    (levels : draft.levels = ListDraft.levelsTo depth) (item : PlainItem)
    (climb : item.depth ≤ depth + 1) (line : Nat) :
    feed {} ⟨some (.list draft), closed⟩ (Token.plain line item.line) =
      ⟨some (.list ⟨draft.ordered, ListDraft.levelsTo item.depth, item.draft :: draft.items,
        false⟩), closed⟩ := by
  obtain ⟨marker, same, token⟩ := plain_item line item
  have added : draft.addItem marker (2 * item.depth) item.body.text =
      ⟨draft.ordered, ListDraft.levelsTo item.depth, item.draft :: draft.items, false⟩ := by
    rw [ListDraft.addItem, levels, ListDraft.enter_levelsTo climb, ListDraft.length_levelsTo, same]
    rfl
  rw [token]
  simp [feed, outside, itemLine, extend, added]

theorem readLines_items (closed : List Item) (first : PlainItem) (rest : List PlainItem)
    (climbs : (first :: rest).IsChain fun item next => next.depth ≤ item.depth + 1)
    (ordered : Bool) (before : List DraftItem) (line : Nat) :
    ∃ levels, readLines line ⟨some (.list ⟨ordered, ListDraft.levelsTo first.depth,
        first.draft :: before, false⟩), closed⟩ (rest.map PlainItem.line) =
      ⟨some (.list ⟨ordered, levels,
        ((first :: rest).map PlainItem.draft).reverse ++ before, false⟩), closed⟩ := by
  induction rest generalizing first before line with
  | nil => exact ⟨_, rfl⟩
  | cons next rest ih =>
    obtain ⟨climb, climbs⟩ := List.isChain_cons_cons.1 climbs
    obtain ⟨levels, read⟩ := ih next climbs (first.draft :: before) (line + 1)
    refine ⟨levels, ?_⟩
    rw [List.map_cons, readLines_cons next.unmarked, feed_item rfl next climb,
      read]
    simp

theorem readLines_list {r : BlockReader} (ready : r.Ready true) (l : PlainList) (line : Nat) :
    ∃ draft : ListDraft, r.readLines line l.lines = ⟨some (.list draft), r.items⟩ ∧
      draft.toNode = l.node := by
  obtain ⟨first, rest, starts, climbs⟩ := l
  obtain ⟨marker, same, token⟩ := plain_item line first
  obtain none | ⟨nothing, -⟩ := ready
  · have started : r.feed {} (Token.plain line first.line) =
        ⟨some (.list ⟨first.ordered, ListDraft.levelsTo first.depth, [first.draft], false⟩),
          r.items⟩ := by
      rw [token, starts]
      simp [feed, outside, itemLine, none, begin, items, ListDraft.start, ListDraft.addItem, same,
        PlainItem.draft, starts, ListDraft.enter, ListDraft.leave, ListDraft.levelsTo]
    obtain ⟨levels, read⟩ :=
      readLines_items r.items first rest climbs first.ordered [] (line + 1)
    refine ⟨⟨first.ordered, levels, ((first :: rest).map PlainItem.draft).reverse ++ [], false⟩,
      ?_, ?_⟩
    · rw [PlainList.lines, List.map_cons, readLines_cons first.unmarked, started, read]
    · simp [ListDraft.toNode, PlainList.node, PlainItem.itemOf_draft, Function.comp_def]
  · cases nothing

end BlockReader

/-! ### Tables -/

namespace TableDraft

/-- The cell of a phrase. -/
def plainCell (c : Phrase) : TableCell Char := ⟨1, 1, false, c.text⟩

theorem cell_phrase (c : Phrase) : cell 1 (' ' :: c.text ++ [' ']) = plainCell c := by
  have mark : (c.text == mergeUpMark) = false := by
    refine beq_eq_false_iff_ne.2 fun same => ?_
    exact c.not_mem (c := '^') rfl (by decide) (same ▸ List.mem_singleton.2 rfl)
  rw [cell, c.tight.trim_spaced, mark]
  rfl

theorem cells_phrases (row : List Phrase) :
    cells (row.map fun c => ' ' :: c.text ++ [' ']) = row.map plainCell := by
  have merged : mergeEmpty (row.map fun c => ' ' :: c.text ++ [' ']) = (0, row.map plainCell) := by
    induction row with
    | nil => rfl
    | cons c rest ih =>
      rw [List.map_cons, mergeEmpty, ih]
      simp [← cell_phrase]
  rw [cells, merged]

theorem width_phrases (row : List Phrase) : TableCell.width (row.map plainCell) = row.length := by
  induction row with
  | nil => rfl
  | cons c rest ih =>
    rw [List.map_cons, TableCell.width, ih, List.length_cons, Nat.add_comm]
    rfl

theorem place_phrases (row : Nat) (cells : List Phrase) (index column : Nat) (draft : TableDraft) :
    ∃ origins, place row index column (cells.map plainCell) draft =
      (cells.map plainCell, { draft with origins }) := by
  induction cells generalizing index column draft with
  | nil => exact ⟨draft.origins, rfl⟩
  | cons c rest ih =>
    obtain ⟨origins, placed⟩ := ih (index + 1) (column + 1)
      { draft with origins := cover (row, index) column 1 draft.origins }
    refine ⟨origins, ?_⟩
    rw [List.map_cons, place]
    simp only [plainCell] at placed ⊢
    simp [placed]

theorem append_phrases (draft : TableDraft) (cells : List Phrase) :
    ∃ origins, draft.append (cells.map plainCell) =
      { draft with rows := draft.rows ++ [⟨false, cells.map plainCell⟩], origins } := by
  obtain ⟨origins, placed⟩ := place_phrases draft.rows.length cells 0 0 draft
  exact ⟨origins, by rw [append, placed]⟩

theorem start_phrases (header : List Phrase) :
    ∃ origins, start (header.map fun c => ' ' :: c.text ++ [' ']) =
      ⟨header.length, none, [⟨false, header.map plainCell⟩], origins⟩ := by
  obtain ⟨origins, appended⟩ := append_phrases
    ⟨header.length, none, [], List.replicate header.length none⟩ header
  refine ⟨origins, ?_⟩
  rw [start, cells_phrases, width_phrases, appended]
  rfl

theorem dropPadding_of_width {columns : Nat} {cells : List (TableCell Char)}
    (fits : TableCell.width cells ≤ columns) : dropPadding columns cells = cells := by
  cases cells with
  | nil => rfl
  | cons last rest => rw [dropPadding, if_neg fun wide => absurd wide.1 (Nat.not_lt.2 fits)]

theorem addRow_phrases (draft : TableDraft) {row : List Phrase}
    (width : row.length = draft.columns) :
    ∃ origins, draft.addRow (row.map fun c => ' ' :: c.text ++ [' ']) =
      .ok { draft with rows := draft.rows ++ [⟨false, row.map plainCell⟩], origins } := by
  obtain ⟨origins, appended⟩ := append_phrases draft row
  have kept : dropPadding draft.columns (row.map plainCell).reverse =
      (row.map plainCell).reverse := by
    refine dropPadding_of_width ?_
    rw [← List.map_reverse, width_phrases, List.length_reverse, width]
  refine ⟨origins, ?_⟩
  rw [addRow, cells_phrases, kept, List.reverse_reverse, width_phrases, if_pos width, appended]

theorem toCell_phrase (c : Phrase) : toCell (plainCell c) = ⟨1, 1, false, [.text c.text]⟩ := by
  rw [toCell, plainCell]
  simp [c.parse_text]

end TableDraft

namespace BlockReader

theorem plain_framed (line : Nat) (pieces : List Text) :
    Token.plain line (PlainLine.framed pieces) =
      ⟨line, .ofText (PlainLine.framed pieces), PlainLine.framed pieces⟩ := by
  rw [Token.plain, if_neg]
  simp [Text.isBlank, PlainLine.framed, show Text.isSpace '|' = false from rfl]

theorem plain_row (line : Nat) {cells : List Phrase} (h : cells ≠ []) :
    Token.plain line (PlainLine.row cells) =
      ⟨line, .tableRow (cells.map fun c => ' ' :: c.text ++ [' ']), PlainLine.row cells⟩ := by
  rw [← Token.Kind.ofText_row h]
  exact plain_framed line _

theorem plain_separator (line : Nat) {alignments : List Alignment} (h : alignments ≠ []) :
    Token.plain line (PlainLine.separator alignments) =
      ⟨line, .tableSeparator alignments, PlainLine.separator alignments⟩ := by
  rw [← Token.Kind.ofText_separator h]
  exact plain_framed line _

theorem feed_row {r : BlockReader} (ready : r.Ready false) {header : List Phrase}
    (h : header ≠ []) (line : Nat) :
    r.feed {} (Token.plain line (PlainLine.row header)) =
      ⟨some (.table (.start (header.map fun c => ' ' :: c.text ++ [' ']))), r.items⟩ := by
  rw [plain_row line h, feed_of_ready ready]
  obtain none | ⟨-, draft, list, -⟩ := ready
  · simp [outside, rowLine, none, begin, items]
  · simp [outside, rowLine, list, begin, items]

theorem readLines_rows (closed : List Item) {width : Nat} (positive : 0 < width)
    (rows : List (List Phrase)) (widths : ∀ row ∈ rows, row.length = width)
    (draft : TableDraft) (columns : draft.columns = width) (line : Nat) :
    ∃ origins, readLines line ⟨some (.table draft), closed⟩ (rows.map PlainLine.row) =
      ⟨some (.table { draft with
        rows := draft.rows ++ rows.map fun row => ⟨false, row.map TableDraft.plainCell⟩, origins }),
        closed⟩ := by
  induction rows generalizing draft line with
  | nil => exact ⟨draft.origins, by simp⟩
  | cons row rest ih =>
    obtain ⟨here, later⟩ := List.forall_mem_cons.1 widths
    have nonempty : row ≠ [] := by
      rintro rfl
      exact absurd here positive.ne
    obtain ⟨origins, added⟩ := TableDraft.addRow_phrases draft (here.trans columns.symm)
    have fed : feed {} ⟨some (.table draft), closed⟩ (Token.plain line (PlainLine.row row)) =
        ⟨some (.table { draft with
          rows := draft.rows ++ [⟨false, row.map TableDraft.plainCell⟩], origins }), closed⟩ := by
      rw [plain_row line nonempty]
      simp only [feed, outside, rowLine, added]
      rfl
    obtain ⟨origins', read⟩ := ih later { draft with
      rows := draft.rows ++ [⟨false, row.map TableDraft.plainCell⟩], origins } columns (line + 1)
    refine ⟨origins', ?_⟩
    rw [List.map_cons, readLines_cons (PlainLine.row_unmarked row), fed, read]
    simp

theorem readLines_table {r : BlockReader} (ready : r.Ready false) (t : PlainTable) (line : Nat) :
    ∃ draft : TableDraft, r.readLines line t.lines = ⟨some (.table draft), r.items⟩ ∧
      .table draft.toTable = t.node := by
  obtain ⟨alignments, header, rows, nonempty, header_width, rows_width⟩ := t
  have positive : 0 < alignments.length := List.length_pos_iff.2 nonempty
  have headed : header ≠ [] := by
    rintro rfl
    exact absurd header_width positive.ne
  obtain ⟨origins, started⟩ := TableDraft.start_phrases header
  have aligned : feed {} ⟨some (.table ⟨header.length, none,
      [⟨false, header.map TableDraft.plainCell⟩], origins⟩), r.items⟩
      (Token.plain (line + 1) (PlainLine.separator alignments)) =
        ⟨some (.table ⟨header.length, some alignments,
          [⟨true, header.map TableDraft.plainCell⟩], origins⟩), r.items⟩ := by
    rw [plain_separator (line + 1) nonempty]
    simp [feed, outside, separatorLine, TableDraft.expectsSeparator, TableDraft.misaligned?,
      TableDraft.align, header_width, extend, put]
  obtain ⟨origins', read⟩ := readLines_rows r.items positive rows rows_width
    ⟨header.length, some alignments, [⟨true, header.map TableDraft.plainCell⟩], origins⟩
    header_width (line + 2)
  refine ⟨⟨header.length, some alignments, ⟨true, header.map TableDraft.plainCell⟩ ::
    rows.map fun row => ⟨false, row.map TableDraft.plainCell⟩, origins'⟩, ?_, ?_⟩
  · rw [PlainTable.lines, readLines_cons (PlainLine.row_unmarked header), feed_row ready headed,
      started, readLines_cons (PlainLine.separator_unmarked alignments), aligned, read]
    rfl
  · simp [TableDraft.toTable, PlainTable.node, PlainTable.row, TableDraft.toCell_phrase]

/-! ### Quotes -/

theorem readLines_quoted {closed : List Item} (start line : Nat) (before lines : List Text)
    (unmarked : ∀ t ∈ lines, t.Unmarked) :
    readLines line ⟨some (.quote start before), closed⟩ (lines.map PlainLine.quoted) =
      ⟨some (.quote start (before ++ lines)), closed⟩ := by
  induction lines generalizing line before with
  | nil => simp
  | cons t rest ih =>
    obtain ⟨here, later⟩ := List.forall_mem_cons.1 unmarked
    have fed : feed {} ⟨some (.quote start before), closed⟩ (Token.plain line (PlainLine.quoted t)) =
        ⟨some (.quote start (before ++ [t])), closed⟩ := rfl
    rw [List.map_cons, readLines_cons (PlainLine.quoted_unmarked here), fed, ih _ _ later]
    simp

theorem readLines_quote {r : BlockReader} (ready : r.Ready false) {lines : List Text}
    (unmarked : ∀ t ∈ lines, t.Unmarked) (nonempty : lines ≠ []) (line : Nat) :
    r.readLines line (lines.map PlainLine.quoted) = ⟨some (.quote line lines), r.items⟩ := by
  obtain ⟨t, rest, rfl⟩ := List.exists_cons_of_ne_nil nonempty
  obtain ⟨here, later⟩ := List.forall_mem_cons.1 unmarked
  have token : Token.plain line (PlainLine.quoted t) =
      ⟨line, .quote 0 t, PlainLine.quoted t⟩ := rfl
  have fed : r.feed {} (Token.plain line (PlainLine.quoted t)) =
      ⟨some (.quote line [t]), r.items⟩ := by
    rw [token, feed_of_ready ready]
    obtain none | ⟨-, draft, list, -⟩ := ready
    · simp [outside, none, begin, items]
    · simp [outside, list, begin, items]
  rw [List.map_cons, readLines_cons (PlainLine.quoted_unmarked here), fed,
    readLines_quoted line (line + 1) [t] rest later]
  rfl

end BlockReader

/-! ## Blocks -/

/-- A block that a blank line ends, and whether it is a list. -/
inductive OpenBlock.Rests : Bool → OpenBlock → Prop
  | paragraph (lines : List Text) : Rests false (.paragraph lines)
  | table (draft : TableDraft) : Rests false (.table draft)
  | quote (line : Nat) (lines : List Text) : Rests false (.quote line lines)
  | list (draft : ListDraft) : Rests true (.list draft)

theorem BlockReader.blank_of_rests {isList : Bool} {block : OpenBlock} (rests : block.Rests isList)
    (closed : List Item) (line : Nat) :
    (feed {} ⟨some block, closed⟩ (Token.plain line [])).items = closed ++ block.items ∧
      ∀ isNextList, (isList && isNextList) = false →
        (feed {} ⟨some block, closed⟩ (Token.plain line [])).Ready isNextList := by
  cases rests with
  | list draft =>
    refine ⟨rfl, fun isNextList apart => .inr ⟨?_, draft.addBlank, rfl, rfl⟩⟩
    simpa using apart
  | _ => exact ⟨rfl, fun _ _ => .inl rfl⟩

/-- The item that a block leaves when it starts on line number `line`. -/
def PlainBlock.item {isList : Bool} (line : Nat) : PlainBlock isList → Item
  | .quote body => .quote line body.lines
  | block => .node block.node

mutual

theorem PlainBlock.lines_ne_nil {isList : Bool} : (block : PlainBlock isList) → block.lines ≠ []
  | .paragraph body => List.cons_ne_nil _ _
  | .list items => List.cons_ne_nil _ _
  | .table table => List.cons_ne_nil _ _
  | .quote body => by
    rw [PlainBlock.lines]
    simpa using body.lines_ne_nil

theorem PlainBlocks.lines_ne_nil {startsList : Bool} :
    (blocks : PlainBlocks startsList) → blocks.lines ≠ []
  | .last block => block.lines_ne_nil
  | .next block rest _ => by simp [PlainBlocks.lines]

end

theorem PlainBlock.read {isList : Bool} (block : PlainBlock isList) {r : BlockReader}
    (ready : r.Ready isList) (line : Nat) :
    ∃ opened : OpenBlock, opened.Rests isList ∧
      r.readLines line block.lines = ⟨some opened, r.items⟩ ∧ opened.items = [block.item line] := by
  cases block with
  | paragraph body =>
    refine ⟨_, .paragraph body.lines, BlockReader.readLines_passage ready body line, ?_⟩
    simp [OpenBlock.items, Item.paragraph, body.parse_lines, item, node]
  | list items =>
    obtain ⟨draft, read, same⟩ := BlockReader.readLines_list ready items line
    exact ⟨_, .list draft, read, by simp [OpenBlock.items, same, item, node]⟩
  | table table =>
    obtain ⟨draft, read, same⟩ := BlockReader.readLines_table ready table line
    exact ⟨_, .table draft, read, by simp [OpenBlock.items, same, item, node]⟩
  | quote body =>
    exact ⟨_, .quote line body.lines,
      BlockReader.readLines_quote ready body.unmarked body.lines_ne_nil line, rfl⟩

/-! ## Documents -/

namespace PlainBlocks

def items {startsList : Bool} (line : Nat) : PlainBlocks startsList → List Item
  | .last block => [block.item line]
  | .next block rest _ => block.item line :: rest.items (line + block.lines.length + 1)

theorem read {startsList : Bool} (blocks : PlainBlocks startsList) {r : BlockReader}
    (ready : r.Ready startsList) (line : Nat) :
    (r.readLines line blocks.lines).items = r.items ++ blocks.items line := by
  match blocks with
  | .last block =>
    obtain ⟨opened, -, read, left⟩ := block.read ready line
    rw [lines, read, items, ← left]
    rfl
  | .next block rest apart =>
    obtain ⟨opened, rests, read, left⟩ := block.read ready line
    obtain ⟨closed, next⟩ :=
      BlockReader.blank_of_rests rests r.items (line + block.lines.length)
    rw [lines, BlockReader.readLines_append block.unmarked, read,
      BlockReader.readLines_cons (by simp [Text.Unmarked]), rest.read (next _ apart), closed, left,
      items, List.append_assoc]
    rfl

end PlainBlocks

theorem Item.completeAll_cons {inner : BlockParser} {item : Item} {items : List Item} {node : Node}
    {nodes : List Node} (here : item.complete inner = some ⟨[node], []⟩)
    (later : completeAll inner items = some ⟨nodes, []⟩) :
    completeAll inner (item :: items) = some ⟨node :: nodes, []⟩ := by
  obtain ⟨parts, read, joined⟩ := Option.map_eq_some_iff.1 later
  rw [completeAll, List.mapM_cons, here, read]
  simp [Blocks.concat, joined, Blocks.append]

theorem PlainLine.size_quoted {lines : List Text} (nonempty : lines ≠ []) :
    Text.size lines < Text.size (lines.map quoted) := by
  have shorter (t : Text) : Text.bytes t < Text.bytes (quoted t) := by
    have := Char.utf8Size_pos '>'
    simp only [quoted, Text.bytes_cons]
    omega
  obtain ⟨t, rest, rfl⟩ := List.exists_cons_of_ne_nil nonempty
  rw [List.map_cons, Text.size_cons, Text.size_cons]
  refine Nat.add_lt_add_of_lt_of_le (shorter t) ?_
  induction rest with
  | nil => exact Nat.le_refl _
  | cons u rest ih =>
    rw [List.map_cons, Text.size_cons, Text.size_cons]
    exact Nat.add_le_add (shorter u).le (ih (List.cons_ne_nil _ _))

section

variable {inner : BlockParser} {bound : Nat}

theorem PlainBlock.complete_item {isList : Bool} (block : PlainBlock isList) (line : Nat)
    (smaller : ∀ {startsList : Bool} (body : PlainBlocks startsList),
      Text.size body.lines < bound → inner body.lines = some ⟨body.nodes, []⟩)
    (fits : Text.size block.lines ≤ bound) :
    (block.item line).complete inner = some ⟨[block.node], []⟩ := by
  cases block with
  | quote body =>
    rw [lines] at fits
    have read := smaller body ((PlainLine.size_quoted body.lines_ne_nil).trans_le fits)
    rw [item, Item.complete, read, node]
    rfl
  | _ => rfl

theorem PlainBlocks.completeAll_items {startsList : Bool} (blocks : PlainBlocks startsList)
    (line : Nat)
    (smaller : ∀ {startsList : Bool} (body : PlainBlocks startsList),
      Text.size body.lines < bound → inner body.lines = some ⟨body.nodes, []⟩)
    (fits : Text.size blocks.lines ≤ bound) :
    Item.completeAll inner (blocks.items line) = some ⟨blocks.nodes, []⟩ := by
  match blocks with
  | .last block =>
    exact Item.completeAll_cons (block.complete_item line smaller fits) rfl
  | .next block rest _ =>
    rw [lines, Text.size_append, Text.size_cons] at fits
    exact Item.completeAll_cons (block.complete_item line smaller (by omega))
      (rest.completeAll_items _ smaller (by omega))

end

theorem PlainBlocks.parseWithin_lines {startsList : Bool} (blocks : PlainBlocks startsList)
    {levels : Nat} (enough : Text.size blocks.lines < levels) :
    Blocks.parseWithin {} levels blocks.lines = some ⟨blocks.nodes, []⟩ := by
  induction levels generalizing startsList blocks with
  | zero => exact absurd enough (Nat.not_lt_zero _)
  | succ levels ih =>
    have tokens : tokenize blocks.lines = .ok (Token.ofLines 0 none blocks.lines) := by
      rw [tokenize, ControlCharacter.find?_eq_none fun t ht c hc => (blocks.unmarked t ht c hc).2]
    have read : BlockReader.read {} (Token.ofLines 0 none blocks.lines) = blocks.items 0 :=
      blocks.read (.inl rfl) 0
    rw [Blocks.parseWithin, tokens]
    dsimp only
    rw [read]
    exact blocks.completeAll_items 0 (fun body fits => ih body fits) (Nat.lt_succ_iff.1 enough)

/-- A document is read back from its lines, and nothing is wrong with it. -/
theorem parse_writtenBlocks {startsList : Bool} (blocks : PlainBlocks startsList) :
    Blocks.parse {} blocks.lines = some ⟨blocks.nodes, []⟩ :=
  blocks.parseWithin_lines Nat.lt_two_pow_self

example :
    let a : Phrase := ⟨⟨['a'], by simp, by simp⟩, []⟩
    let b : Phrase := ⟨⟨['b'], by simp, by simp⟩, []⟩
    let items : PlainList := ⟨⟨0, false, a⟩, [⟨1, true, b⟩], rfl, by simp⟩
    let table : PlainTable := ⟨[.left, .right], [a, b], [[b, a]], by simp, rfl, by simp⟩
    (PlainBlocks.next (.quote (.last (.list items))) (.last (.table table)) rfl).lines =
      ["> - a", ">   1. b", "", "| a | b |", "| --- | ---: |", "| b | a |"].map String.toList := by
  decide

end DocComment
