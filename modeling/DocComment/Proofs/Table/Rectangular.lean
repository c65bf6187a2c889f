import DocComment.Proofs.Table.Draft
import Mathlib

/-!
# Tables are rectangular

Whatever rows and separators an open table is given, in any order, its rows fill its columns, every
cell that a row below continues is where it is looked for, and the rows that cells cover beyond
their own are as many as the cells that are merged up.
-/

set_option autoImplicit false

namespace DocComment

variable {α : Type}

/-- What an open table can be given. -/
inductive TableCall where
  | row (raw : List Text)
  | separator (alignments : List Alignment)

namespace TableDraft

open TableRow

/-! ## Given rows and separators -/

/-- The width that is answered where something does not fit, and the table after it. -/
def answer (draft : TableDraft) : TableCall → Option Nat × TableDraft
  | .row raw =>
    match draft.addRow raw with
    | .ok draft => (none, draft)
    | .error found => (some found, draft)
  | .separator alignments => (draft.misaligned? alignments, draft.align alignments)

/-- The table that starts with a row and is given some rows and separators. -/
def after (first : List Text) (calls : List TableCall) : TableDraft :=
  calls.foldl (fun draft call => (draft.answer call).2) (start first)

theorem answer_row (draft : TableDraft) (raw : List Text) :
    draft.answer (.row raw) =
      if TableCell.width (fitted draft.columns raw) = draft.columns then
        (none, draft.append (fitted draft.columns raw))
      else (some (TableCell.width (fitted draft.columns raw)), draft) := by
  rw [answer, addRow_eq]
  by_cases fits : TableCell.width (fitted draft.columns raw) = draft.columns
  · rw [if_pos fits, if_pos fits]
  · rw [if_neg fits, if_neg fits]

/-! ## Places looked up -/

/-- One more row for the cell at a place, if there is one. -/
def extendDown? (place : Nat × Nat) (rows : List (TableRow Char)) :
    Option (List (TableRow Char)) := do
  let row ← rows[place.1]?
  let _ ← row.cells[place.2]?
  return extendDown place rows

/-- Places cells as `place` does, if every cell that is looked up by its place is there. -/
def place? (row : Nat) : Nat → Nat → List (TableCell Char) → TableDraft →
    Option (List (TableCell Char) × TableDraft)
  | _, _, [], draft => some ([], draft)
  | index, column, c :: rest, draft => do
    let origin? := if c.mergedUp then draft.origins[column]?.join else none
    let (c, draft) ←
      match origin? with
      | some origin => (extendDown? origin draft.rows).map fun rows => (c, { draft with rows })
      | none => some ({ c with mergedUp := false },
          { draft with origins := cover (row, index) column c.span draft.origins })
    let (placed, draft) ← place? row (index + 1) (column + c.span) rest draft
    return (c :: placed, draft)

def append? (draft : TableDraft) (cells : List (TableCell Char)) : Option TableDraft := do
  let (placed, draft) ← place? draft.rows.length 0 0 cells draft
  return { draft with rows := draft.rows ++ [⟨false, placed⟩] }

def start? (raw : List Text) : Option TableDraft :=
  let first := cells raw
  let columns := TableCell.width first
  append? ⟨columns, none, [], List.replicate columns none⟩ first

def answer? (draft : TableDraft) : TableCall → Option (Option Nat × TableDraft)
  | .row raw =>
    let cells := fitted draft.columns raw
    if TableCell.width cells = draft.columns then
      (draft.append? cells).map fun draft => (none, draft)
    else some (some (TableCell.width cells), draft)
  | .separator alignments => some (draft.misaligned? alignments, draft.align alignments)

/-- The table after some calls, if every cell that is looked up by its place is there. -/
def after? (first : List Text) (calls : List TableCall) : Option TableDraft := do
  calls.foldlM (fun draft call => (draft.answer? call).map Prod.snd) (← start? first)

theorem extendDown?_eq {place : Nat × Nat} {rows : List (TableRow Char)}
    (there : (cellAt? rows place).isSome) :
    extendDown? place rows = some (extendDown place rows) := by
  obtain ⟨c, found⟩ := Option.isSome_iff_exists.mp there
  obtain ⟨row, known, cell⟩ := Option.bind_eq_some_iff.mp found
  simp [extendDown?, known, cell]

theorem place?_eq (above : Nat → Option (Nat × Nat)) (row index column : Nat)
    (cells : List (TableCell Char)) (draft : TableDraft)
    (known : ∀ n, column ≤ n → draft.origins[n]?.join = above n)
    (there : ∀ n p, above n = some p → (cellAt? draft.rows p).isSome) :
    place? row index column cells draft = some (place row index column cells draft) := by
  induction cells generalizing index column draft with
  | nil => rfl
  | cons c rest ih =>
    rw [place?, place]
    cases origin : (if c.mergedUp then draft.origins[column]?.join else none) with
    | some p =>
      have found : above column = some p := by
        rw [← known column (Nat.le_refl _)]
        by_cases merged : c.mergedUp = true <;> simp_all
      have later := ih (index + 1) (column + c.span)
        { draft with rows := extendDown p draft.rows } (fun n le => known n (by omega))
        fun n q place => by
          rw [extendDown_eq, cellAt?_raise, Option.isSome_map]
          exact there n q place
      simp [extendDown?_eq (there column p found), later]
    | none =>
      have later := ih (index + 1) (column + c.span)
        { draft with origins := cover (row, index) column c.span draft.origins }
        (fun n le => by
          rw [← known n (by omega)]
          exact join_cover_outside _ _ (.inr le)) there
      simp [later]

theorem Grid.append?_eq {draft : TableDraft} (grid : draft.Grid) (cells : List (TableCell Char)) :
    draft.append? cells = some (draft.append cells) := by
  rw [append?, TableDraft.append, place?_eq draft.above _ _ _ _ _ fun n _ => grid.origins n]
  · rfl
  · intro n p found
    obtain ⟨-, c, known, -⟩ := above?_eq_some found
    exact Option.isSome_iff_exists.mpr ⟨c, known⟩

/-! ## Rows covered -/

/-- All rows that the cells cover, cell by cell. -/
def extent (rows : List (TableRow Char)) : Nat :=
  ((rows.flatMap TableRow.cells).map TableCell.rowSpan).sum

theorem sum_map_modify {β : Type} (f : β → β) (g : β → Nat) {l : List β} {i : Nat} {b : β}
    (known : l[i]? = some b) :
    ((l.modify i f).map g).sum + g b = (l.map g).sum + g (f b) := by
  induction l generalizing i with
  | nil => simp at known
  | cons a l ih =>
    cases i with
    | zero =>
      obtain rfl : a = b := by simpa using known
      simp only [List.modify_zero_cons, List.map_cons, List.sum_cons]
      omega
    | succ i =>
      have := ih (by simpa using known)
      simp only [List.modify_succ_cons, List.map_cons, List.sum_cons]
      omega

theorem extent_eq (rows : List (TableRow Char)) :
    extent rows = (rows.map fun row => (row.cells.map TableCell.rowSpan).sum).sum := by
  rw [extent, List.map_flatMap, List.flatMap_def, List.sum_flatten, List.map_map]
  rfl

theorem extent_extendDown {place : Nat × Nat} {rows : List (TableRow Char)}
    (there : (cellAt? rows place).isSome) : extent (extendDown place rows) = extent rows + 1 := by
  obtain ⟨c, found⟩ := Option.isSome_iff_exists.mp there
  obtain ⟨row, known, cell⟩ := Option.bind_eq_some_iff.mp found
  have outer := sum_map_modify
    (fun row => { row with cells := row.cells.modify place.2 fun c => { c with
      rowSpan := c.rowSpan + 1 } })
    (fun row => (row.cells.map TableCell.rowSpan).sum) known
  have inner := sum_map_modify (fun c => { c with rowSpan := c.rowSpan + 1 }) TableCell.rowSpan cell
  rw [extent_eq, extent_eq, extendDown]
  simp only at outer inner
  omega

theorem extent_raise {places : List (Nat × Nat)} {rows : List (TableRow Char)}
    (there : ∀ p ∈ places, (cellAt? rows p).isSome) :
    extent (raise (fun p => places.count p) rows) = extent rows + places.length := by
  induction places generalizing rows with
  | nil => simp [raise_zero]
  | cons p places ih =>
    obtain ⟨here, others⟩ := List.forall_mem_cons.mp there
    rw [← raise_extendDown, ih, extent_extendDown here, List.length_cons]
    · omega
    · intro q mem
      rw [extendDown_eq, cellAt?_raise, Option.isSome_map]
      exact others q mem

theorem map_shape_flatMap (rows : List (TableRow α)) :
    (rows.flatMap TableRow.cells).map TableCell.shape = (rows.map TableRow.shape).flatten := by
  rw [List.map_flatMap, List.flatMap_def]
  rfl

theorem countP_mergedUp (cells : List (TableCell α)) :
    cells.countP TableCell.mergedUp = (cells.map TableCell.shape).countP Prod.snd := by
  rw [List.countP_map]
  rfl

theorem length_flatMap_raise (more : Nat × Nat → Nat) (rows : List (TableRow Char)) :
    ((raise more rows).flatMap TableRow.cells).length = (rows.flatMap TableRow.cells).length := by
  rw [← List.length_map TableCell.shape, map_shape_flatMap, map_shape_raise, ← map_shape_flatMap,
    List.length_map]

theorem countP_flatMap_raise (more : Nat × Nat → Nat) (rows : List (TableRow Char)) :
    ((raise more rows).flatMap TableRow.cells).countP TableCell.mergedUp =
      (rows.flatMap TableRow.cells).countP TableCell.mergedUp := by
  rw [countP_mergedUp, map_shape_flatMap, map_shape_raise, ← map_shape_flatMap, ← countP_mergedUp]

/-! ## Every table -/

/-- What holds of a table from its first row on. -/
structure Formed (draft : TableDraft) : Prop extends draft.Grid where
  started : draft.rows = [] → draft.alignment = none
  aligned : ∀ alignments ∈ draft.alignment, alignments.length = draft.columns
  /-- The separator marks the first row. -/
  header : ∀ r row, draft.rows[r]? = some row →
    (row.header = true ↔ r = 0 ∧ draft.alignment.isSome)
  positive : ∀ row ∈ draft.rows, ∀ c ∈ row.cells, 1 ≤ c.rowSpan
  extent : TableDraft.extent draft.rows = (draft.rows.flatMap TableRow.cells).length +
    (draft.rows.flatMap TableRow.cells).countP TableCell.mergedUp

theorem formed_empty (columns : Nat) :
    Formed ⟨columns, none, [], List.replicate columns none⟩ :=
  { grid_empty columns with
    started := fun _ => rfl
    aligned := by simp
    header := by simp
    positive := by simp
    extent := rfl }

theorem Formed.append {draft : TableDraft} (formed : draft.Formed) {cells : List (TableCell Char)}
    (width : TableCell.width cells = draft.columns)
    (fresh : ∀ c ∈ cells, Fresh c) : (draft.append cells).Formed := by
  have single := rowSpan_settle draft.above 0 fresh
  have grid := formed.toGrid.append width fresh
  rw [formed.toGrid.append_eq] at grid ⊢
  refine { grid with
    started := by simp
    aligned := formed.aligned
    header := ?_
    positive := ?_
    extent := ?_ }
  · intro r row found
    by_cases old : r < draft.rows.length
    · rw [List.getElem?_append_left (by simpa using old), getElem?_raise] at found
      obtain ⟨other, known, rfl⟩ := Option.map_eq_some_iff.mp found
      exact formed.header r other known
    · rw [List.getElem?_append_right (by simpa using old), length_raise] at found
      have last : row = ⟨false, settle draft.above 0 cells⟩ := by
        have := List.mem_of_getElem? found
        simpa using this
      simp only [last, Bool.false_eq_true, false_iff, not_and]
      intro zero
      have empty : draft.rows = [] := List.length_eq_zero_iff.mp (by omega)
      simp [formed.started empty]
  · intro row known c mem
    rcases List.mem_append.mp known with old | new
    · obtain ⟨other, there, lift, rfl⟩ := mem_raise old
      obtain ⟨d, inside, n, rfl⟩ := mem_lengthen mem
      have := formed.positive other there d inside
      exact Nat.le_add_right_of_le this
    · rw [List.mem_singleton.mp new] at mem
      exact Nat.le_of_eq (single c mem).symm
  · have ones : ((settle draft.above 0 cells).map TableCell.rowSpan).sum =
        (settle draft.above 0 cells).length := by
      rw [List.map_congr_left single]
      simp
    have more : TableDraft.extent
        (raise (fun p => (TableCell.continued draft.above 0 cells).count p) draft.rows) =
          TableDraft.extent draft.rows +
            (settle draft.above 0 cells).countP TableCell.mergedUp := by
      rw [← length_continued]
      apply extent_raise
      intro p mem
      obtain ⟨n, -, found⟩ := TableCell.exists_of_mem_continued mem
      obtain ⟨-, c, known, -⟩ := above?_eq_some found
      exact Option.isSome_iff_exists.mpr ⟨c, known⟩
    have before := formed.extent
    simp only [TableDraft.extent, List.flatMap_append, List.flatMap_singleton, List.map_append,
      List.sum_append, List.length_append, List.countP_append, length_flatMap_raise,
      countP_flatMap_raise] at *
    omega

theorem columns_start (raw : List Text) : (start raw).columns = raw.length := by
  rw [start, (formed_empty _).toGrid.append_eq]
  exact width_cells raw

theorem formed_start (raw : List Text) : (start raw).Formed :=
  (formed_empty _).append rfl (fresh_cells raw)

theorem start?_eq (raw : List Text) : start? raw = some (start raw) :=
  (formed_empty _).toGrid.append?_eq _

theorem map_cells_align (draft : TableDraft) (alignments : List Alignment) :
    (draft.align alignments).rows.map TableRow.cells = draft.rows.map TableRow.cells := by
  cases rows : draft.rows <;> simp [align, rows]

theorem Formed.align {draft : TableDraft} (formed : draft.Formed) (nonempty : draft.rows ≠ [])
    (alignments : List Alignment) : (draft.align alignments).Formed := by
  have same := map_cells_align draft alignments
  have mem {row : TableRow Char} (known : row ∈ (draft.align alignments).rows) :
      ∃ other ∈ draft.rows, other.cells = row.cells := by
    apply List.mem_map.mp
    rw [← same]
    exact List.mem_map_of_mem known
  have shapes : (draft.align alignments).rows.map TableRow.shape =
      draft.rows.map TableRow.shape := by
    have mapped := congrArg (List.map (List.map TableCell.shape)) same
    rw [List.map_map, List.map_map] at mapped
    exact mapped
  have all : (draft.align alignments).rows.flatMap TableRow.cells =
      draft.rows.flatMap TableRow.cells := by
    rw [List.flatMap_def, List.flatMap_def, same]
  refine ⟨⟨?_, ?_, formed.length, ?_, ?_⟩, ?_, ?_, ?_, ?_, ?_⟩
  · intro row known
    obtain ⟨other, there, cells⟩ := mem known
    rw [TableRow.width, ← cells]
    exact formed.widths other there
  · intro row known
    obtain ⟨other, there, cells⟩ := mem known
    rw [← cells]
    exact formed.spans other there
  · intro n
    have length := congrArg List.length shapes
    rw [List.length_map, List.length_map] at length
    rw [length, above?_eq_of_shape (congrArg _ shapes)]
    exact formed.origins n
  · intro row first
    obtain ⟨head, tail, rows⟩ := List.exists_cons_of_ne_nil nonempty
    have marked : { head with header := true } = row := by
      simpa [TableDraft.align, rows] using first
    rw [← marked]
    exact formed.top head (by simp [rows])
  · intro empty
    rw [← List.map_eq_nil_iff, same, List.map_eq_nil_iff] at empty
    exact absurd empty nonempty
  · simp [TableDraft.align]
    omega
  · intro r row found
    rw [TableDraft.align, List.getElem?_modify] at found
    obtain ⟨other, known, rfl⟩ := Option.map_eq_some_iff.mp found
    by_cases zero : r = 0
    · simp [zero, TableDraft.align]
    · have before := formed.header r other known
      simp only [zero, false_and, iff_false] at before
      simp [zero, Ne.symm zero, before]
  · intro row known
    obtain ⟨other, there, cells⟩ := mem known
    rw [← cells]
    exact formed.positive other there
  · rw [TableDraft.extent, all]
    exact formed.extent

/-! ## All calls -/

theorem rows_append_ne_nil (draft : TableDraft) (cells : List (TableCell Char)) :
    (draft.append cells).rows ≠ [] := by
  simp [append]

theorem Formed.answer {draft : TableDraft} (formed : draft.Formed) (nonempty : draft.rows ≠ [])
    (call : TableCall) :
    (draft.answer call).2.Formed ∧ (draft.answer call).2.rows ≠ [] ∧
      (draft.answer call).2.columns = draft.columns ∧
      draft.answer? call = some (draft.answer call) ∧
      ((draft.answer call).2.alignment.isSome ↔
        draft.alignment.isSome ∨ ∃ alignments, .separator alignments = call) := by
  cases call with
  | row raw =>
    rw [answer_row, answer?]
    by_cases fits : TableCell.width (fitted draft.columns raw) = draft.columns
    · have appended := formed.toGrid.append_eq (fitted draft.columns raw)
      rw [if_pos fits, if_pos fits, formed.toGrid.append?_eq]
      refine ⟨formed.append fits (fresh_fitted _ raw),
        rows_append_ne_nil _ _, ?_, rfl, ?_⟩
      · rw [appended]
      · rw [appended]
        simp
    · rw [if_neg fits, if_neg fits]
      exact ⟨formed, nonempty, rfl, rfl, by simp⟩
  | separator alignments =>
    refine ⟨formed.align nonempty alignments, ?_, rfl, rfl, ?_⟩
    · intro empty
      have same := map_cells_align draft alignments
      rw [TableDraft.answer] at empty
      rw [empty, List.map_nil, eq_comm, List.map_eq_nil_iff] at same
      exact nonempty same
    · simp [TableDraft.answer, TableDraft.align]

theorem Formed.calls {draft : TableDraft} (formed : draft.Formed) (nonempty : draft.rows ≠ [])
    (calls : List TableCall) :
    let last := calls.foldl (fun draft call => (draft.answer call).2) draft
    last.Formed ∧ last.columns = draft.columns ∧
      calls.foldlM (fun draft call => (draft.answer? call).map Prod.snd) draft = some last ∧
      (last.alignment.isSome ↔
        draft.alignment.isSome ∨ ∃ alignments, .separator alignments ∈ calls) := by
  induction calls generalizing draft with
  | nil => exact ⟨formed, rfl, rfl, by simp⟩
  | cons call rest ih =>
    obtain ⟨next, some, same, looked, aligned⟩ := formed.answer nonempty call
    obtain ⟨last, columns, run, after⟩ := ih next some
    refine ⟨last, columns.trans same, ?_, ?_⟩
    · rw [List.foldlM_cons, looked]
      exact run
    · rw [List.foldl_cons, after, aligned]
      simp only [List.mem_cons, exists_or, or_assoc]

theorem formed_after (first : List Text) (calls : List TableCall) :
    (after first calls).Formed ∧ (after first calls).columns = first.length ∧
      after? first calls = some (after first calls) ∧
      ((after first calls).alignment.isSome ↔ ∃ alignments, .separator alignments ∈ calls) := by
  obtain ⟨formed, columns, run, aligned⟩ :=
    (formed_start first).calls (rows_append_ne_nil _ _) calls
  have unaligned : (start first).alignment = none := by
    rw [start, (formed_empty _).toGrid.append_eq]
  refine ⟨formed, columns.trans (columns_start first), ?_, ?_⟩
  · rw [after?, start?_eq]
    exact run
  · simpa [unaligned, after] using aligned

theorem map_shape_toCell (cells : List (TableCell Char)) :
    (cells.map toCell).map TableCell.shape = cells.map TableCell.shape := by
  rw [List.map_map]
  rfl

theorem Formed.columns_toTable {draft : TableDraft} (formed : draft.Formed) :
    draft.toTable.columns = draft.columns := by
  rw [Table.columns, toTable]
  cases h : draft.alignment with
  | none => exact List.length_replicate
  | some alignments => exact formed.aligned alignments h

theorem flatMap_cells_toTable (draft : TableDraft) :
    draft.toTable.rows.flatMap TableRow.cells =
      (draft.rows.flatMap TableRow.cells).map toCell := by
  rw [toTable, List.flatMap_map, List.map_flatMap]

/-- What the cells cover beyond their own rows. -/
theorem Formed.sum_rowSpan {draft : TableDraft} (formed : draft.Formed) :
    ((draft.rows.flatMap TableRow.cells).map fun c => c.rowSpan - 1).sum =
      (draft.rows.flatMap TableRow.cells).countP TableCell.mergedUp := by
  have less (cells : List (TableCell Char)) (positive : ∀ c ∈ cells, 1 ≤ c.rowSpan) :
      (cells.map fun c => c.rowSpan - 1).sum + cells.length =
        (cells.map TableCell.rowSpan).sum := by
    induction cells with
    | nil => rfl
    | cons c rest ih =>
      obtain ⟨here, later⟩ := List.forall_mem_cons.mp positive
      have := ih later
      simp only [List.map_cons, List.sum_cons, List.length_cons]
      omega
  have total := less (draft.rows.flatMap TableRow.cells) (by
    simp only [List.mem_flatMap]
    rintro c ⟨row, known, mem⟩
    exact formed.positive row known c mem)
  have extent := formed.extent
  rw [TableDraft.extent] at extent
  omega

/-- A table that has been given any rows and separators is rectangular. No cell is looked up where
there is none on the way, and a row that is refused leaves the table as it was. -/
theorem table_stays_rectangular (first : List Text) (calls : List TableCall) :
    let table := (after first calls).toTable
    after? first calls = some (after first calls) ∧
      table.columns = first.length ∧
      (∀ row ∈ table.rows, row.width = table.columns ∧ ∀ c ∈ row.cells, 1 ≤ c.span) ∧
      (∀ r row, table.rows[r]? = some row →
        (row.header = true ↔ r = 0 ∧ ∃ alignments, .separator alignments ∈ calls)) ∧
      ((table.rows.flatMap TableRow.cells).map fun c => c.rowSpan - 1).sum =
        (table.rows.flatMap TableRow.cells).countP TableCell.mergedUp ∧
      ∀ raw found, ((after first calls).answer (.row raw)).1 = some found →
        after first (calls ++ [.row raw]) = after first calls := by
  obtain ⟨formed, columns, run, aligned⟩ := formed_after first calls
  refine ⟨run, formed.columns_toTable.trans columns, ?_, ?_, ?_, ?_⟩
  · intro row known
    rw [formed.columns_toTable]
    obtain ⟨other, there, rfl⟩ := List.mem_map.mp known
    constructor
    · rw [← formed.widths other there]
      exact TableCell.width_eq_of_shape (map_shape_toCell other.cells)
    · intro c mem
      obtain ⟨d, inside, rfl⟩ := List.mem_map.mp mem
      exact formed.spans other there d inside
  · intro r row found
    rw [toTable, List.getElem?_map] at found
    obtain ⟨other, known, rfl⟩ := Option.map_eq_some_iff.mp found
    rw [← aligned]
    exact formed.header r other known
  · have sums := formed.sum_rowSpan
    rw [flatMap_cells_toTable, List.map_map, List.countP_map]
    exact sums
  · intro raw found refused
    rw [after, List.foldl_append]
    change ((after first calls).answer (.row raw)).2 = after first calls
    rw [answer_row] at refused ⊢
    by_cases fits : TableCell.width (fitted (after first calls).columns raw) =
        (after first calls).columns
    · simp [fits] at refused
    · rw [if_neg fits]

end TableDraft

end DocComment
