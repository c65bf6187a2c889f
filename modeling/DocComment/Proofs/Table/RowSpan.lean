import DocComment.Proofs.Table.Draft
import Mathlib.Data.List.Dedup

/-!
# Rows that a cell covers

A cell counts every cell that continues it. Where it spans several columns a single row may hold
more than one of those, and then the cell covers more rows than there are; otherwise it covers its
own row and one for each row that continues it.
-/

set_option autoImplicit false

namespace DocComment

variable {α : Type}

namespace TableRow

/-- The places that the cells of a row continue. -/
def continuedIn (rows : List (TableRow α)) (row : Nat) : List (Nat × Nat) :=
  match rows[row]? with
  | some r => TableCell.continued (fun column => above? rows column row) 0 r.cells
  | none => []

/-- The numbers of the rows with cells that continue the cell at a place, once for each of these
cells. -/
def continuing (rows : List (TableRow α)) (place : Nat × Nat) : List Nat :=
  (List.range rows.length).flatMap fun row =>
    List.replicate ((continuedIn rows row).count place) row

theorem continuedIn_eq_of_shape {β : Type} {a : List (TableRow α)} {b : List (TableRow β)}
    (same : a.map shape = b.map shape) (row : Nat) : continuedIn a row = continuedIn b row := by
  have here : a[row]?.map shape = b[row]?.map shape := by
    rw [← List.getElem?_map, same, List.getElem?_map]
  have above : (fun column => above? a column row) = fun column => above? b column row := by
    funext column
    exact above?_eq_of_shape (congrArg _ same) column
  rw [continuedIn, continuedIn, above]
  obtain ⟨none, none'⟩ | ⟨r, s, first, second, equal⟩ := rows_of_shape here
  · rw [none, none']
  · rw [first, second]
    exact TableCell.continued_eq_of_shape equal _ 0

theorem continuing_eq_of_shape {β : Type} {a : List (TableRow α)} {b : List (TableRow β)}
    (same : a.map shape = b.map shape) (place : Nat × Nat) :
    continuing a place = continuing b place := by
  have length : a.length = b.length := by simpa using congrArg List.length same
  simp only [continuing, length, continuedIn_eq_of_shape same]

/-- A row below all others adds the cells that it continues. -/
theorem continuing_concat (rows : List (TableRow α)) (row : TableRow α) (place : Nat × Nat) :
    continuing (rows ++ [row]) place = continuing rows place ++ List.replicate
      ((TableCell.continued (fun column => above? rows column rows.length) 0 row.cells).count place)
      rows.length := by
  have above {r : Nat} (le : r ≤ rows.length) : (fun column => above? (rows ++ [row]) column r) =
      fun column => above? rows column r := by
    funext column
    exact above?_append [row] column le
  have last : continuedIn (rows ++ [row]) rows.length =
      TableCell.continued (fun column => above? rows column rows.length) 0 row.cells := by
    rw [continuedIn, above (Nat.le_refl _)]
    simp
  have before {r : Nat} (lt : r < rows.length) :
      continuedIn (rows ++ [row]) r = continuedIn rows r := by
    rw [continuedIn, continuedIn, above (Nat.le_of_lt lt), List.getElem?_append_left lt]
  rw [continuing, List.length_append, List.length_singleton, List.range_succ, List.flatMap_append,
    List.flatMap_singleton, last, continuing]
  congr 1
  rw [List.flatMap_def, List.flatMap_def]
  congr 1
  apply List.map_congr_left
  intro r mem
  rw [before (List.mem_range.mp mem)]

/-- A cell is continued in rows below its own. -/
theorem lt_of_mem_continuing {rows : List (TableRow α)} {place : Nat × Nat} {row : Nat}
    (h : row ∈ continuing rows place) : place.1 < row ∧ row < rows.length := by
  obtain ⟨r, inside, mem⟩ := List.mem_flatMap.mp h
  obtain ⟨some, rfl⟩ := List.mem_replicate.mp mem
  refine ⟨?_, List.mem_range.mp inside⟩
  have known : place ∈ continuedIn rows row := List.count_pos_iff.mp (by omega)
  rw [continuedIn] at known
  split at known
  next r found =>
    obtain ⟨n, -, above⟩ := TableCell.exists_of_mem_continued known
    exact (above?_eq_some above).1
  next => cases known

/-- The rows that continue a cell are among those below it. -/
theorem length_dedup_continuing (rows : List (TableRow α)) {place : Nat × Nat}
    (inside : place.1 < rows.length) :
    place.1 + 1 + (continuing rows place).dedup.length ≤ rows.length := by
  have among : (continuing rows place).dedup ⊆
      List.range' (place.1 + 1) (rows.length - (place.1 + 1)) := by
    intro row mem
    have := lt_of_mem_continuing (List.mem_dedup.mp mem)
    rw [List.mem_range'_1]
    omega
  have length := (List.subperm_of_subset (List.nodup_dedup _) among).length_le
  rw [List.length_range'] at length
  omega

theorem cellAt?_lt {rows : List (TableRow α)} {place : Nat × Nat} {c : TableCell α}
    (found : cellAt? rows place = some c) : place.1 < rows.length := by
  obtain ⟨row, known, -⟩ := Option.bind_eq_some_iff.mp found
  exact (List.getElem?_eq_some_iff.mp known).1

end TableRow

namespace TableDraft

open TableRow

/-- Every cell covers its own row and counts one more for each cell that continues it. -/
structure Counted (draft : TableDraft) : Prop extends draft.Grid where
  rowSpan : ∀ place c, cellAt? draft.rows place = some c →
    c.rowSpan = 1 + (continuing draft.rows place).length

theorem Counted.append {draft : TableDraft} (counted : draft.Counted)
    {cells : List (TableCell Char)} (width : TableCell.width cells = draft.columns)
    (fresh : ∀ c ∈ cells, Fresh c) : (draft.append cells).Counted := by
  have single := rowSpan_settle draft.above 0 fresh
  refine ⟨counted.toGrid.append width fresh, fun place c found => ?_⟩
  let links := TableCell.continued draft.above 0 cells
  have rows : (draft.append cells).rows = raise (fun p => links.count p) draft.rows ++
      [⟨false, settle draft.above 0 cells⟩] := by
    rw [counted.toGrid.append_eq]
  have below : continuing (draft.append cells).rows place = continuing draft.rows place ++
      List.replicate (links.count place) draft.rows.length := by
    rw [rows, continuing_concat, continuing_eq_of_shape (map_shape_raise _ _), length_raise]
    simp only [above?_raise]
    congr 3
    exact continued_settle _ _ _
  by_cases old : place.1 < draft.rows.length
  · rw [cellAt?, rows, List.getElem?_append_left (by simpa using old), ← cellAt?, cellAt?_raise]
      at found
    obtain ⟨d, known, rfl⟩ := Option.map_eq_some_iff.mp found
    rw [below, List.length_append, List.length_replicate]
    have := counted.rowSpan place d known
    simp only
    omega
  · have none : continuing (draft.append cells).rows place = [] := by
      apply List.eq_nil_iff_forall_not_mem.mpr
      intro row mem
      have := lt_of_mem_continuing mem
      rw [rows, List.length_append, length_raise, List.length_singleton] at this
      omega
    obtain ⟨row, known, cell⟩ := Option.bind_eq_some_iff.mp found
    rw [rows, List.getElem?_append_right (by simpa using old)] at known
    have last : row = ⟨false, settle draft.above 0 cells⟩ := by
      simpa using List.mem_of_getElem? known
    rw [last] at cell
    rw [none, single c (List.mem_of_getElem? cell)]
    rfl

theorem counted_start (raw : List Text) : (start raw).Counted := by
  have empty : Counted ⟨TableCell.width (cells raw), none, [],
      List.replicate (TableCell.width (cells raw)) none⟩ :=
    ⟨grid_empty _, fun place c found => by simp [cellAt?] at found⟩
  exact empty.append rfl (fresh_cells raw)

theorem Counted.addRow {draft next : TableDraft} (counted : draft.Counted) {raw : List Text}
    (accepted : draft.addRow raw = .ok next) : next.Counted := by
  rw [addRow_eq] at accepted
  by_cases fits : TableCell.width (fitted draft.columns raw) = draft.columns
  · rw [if_pos fits] at accepted
    cases accepted
    exact counted.append fits (fresh_fitted _ raw)
  · rw [if_neg fits] at accepted
    cases accepted

theorem Counted.addRows {draft last : TableDraft} (counted : draft.Counted)
    {rows : List (List Text)} (accepted : rows.foldlM TableDraft.addRow draft = .ok last) :
    last.Counted := by
  induction rows generalizing draft with
  | nil =>
    cases accepted
    exact counted
  | cons raw rest ih =>
    rw [List.foldlM_cons] at accepted
    cases next : draft.addRow raw with
    | error found =>
      rw [next] at accepted
      cases accepted
    | ok middle =>
      rw [next] at accepted
      exact ih (counted.addRow next) accepted

theorem cellAt?_toTable (draft : TableDraft) (place : Nat × Nat) :
    cellAt? draft.toTable.rows place = (cellAt? draft.rows place).map toCell := by
  rw [cellAt?, cellAt?, toTable, List.getElem?_map]
  cases draft.rows[place.1]? with
  | none => rfl
  | some row => simp

theorem map_shape_toTable (draft : TableDraft) :
    draft.toTable.rows.map TableRow.shape = draft.rows.map TableRow.shape := by
  simp [toTable, TableRow.shape, TableCell.shape, toCell]

/-- A cell of a table of accepted rows covers its own row and one for each cell that continues it.
That is one for each row that continues it exactly if none of them does so twice; then the cell ends
within the table. -/
theorem rowSpan_counts_continuations {first : List Text} {rest : List (List Text)}
    {draft : TableDraft} (accepted : rest.foldlM addRow (start first) = .ok draft) {r i : Nat}
    {c : TableCell Node} (found : cellAt? draft.toTable.rows (r, i) = some c) :
    let below := continuing draft.toTable.rows (r, i)
    c.rowSpan = 1 + below.length ∧ (∀ row ∈ below, r < row ∧ row < draft.toTable.rows.length) ∧
      (c.rowSpan = 1 + below.dedup.length ↔ below.Nodup) ∧
      (below.Nodup → r + c.rowSpan ≤ draft.toTable.rows.length) := by
  have counted := (counted_start first).addRows accepted
  have inside := cellAt?_lt found
  have within := length_dedup_continuing draft.toTable.rows inside
  have spans : c.rowSpan = 1 + (continuing draft.toTable.rows (r, i)).length := by
    rw [cellAt?_toTable] at found
    obtain ⟨d, known, rfl⟩ := Option.map_eq_some_iff.mp found
    rw [continuing_eq_of_shape (map_shape_toTable draft)]
    exact counted.rowSpan (r, i) d known
  refine ⟨spans, fun row mem => lt_of_mem_continuing mem, ?_, ?_⟩
  · rw [spans, Nat.add_left_cancel_iff]
    constructor
    · intro same
      rw [← (List.dedup_sublist _).eq_of_length same.symm]
      exact List.nodup_dedup _
    · intro single
      rw [single.dedup]
  · intro single
    rw [single.dedup] at within
    simp only at within
    omega

/-- A cell of two columns that the next row continues as a whole, and the row after that in its
second column only. -/
theorem spannedCell_counted :
    ∃ draft c, [["^".toList, [], "c".toList], ["x".toList, "^".toList, "^".toList]].foldlM addRow
        (start ["a".toList, [], "b".toList]) = .ok draft ∧
      cellAt? draft.toTable.rows (0, 0) = some c ∧
      continuing draft.toTable.rows (0, 0) = [1, 2] ∧ c.rowSpan = 3 ∧
      0 + c.rowSpan ≤ draft.toTable.rows.length := by
  obtain ⟨draft, accepted, c, found, below⟩ : ∃ draft,
      [["^".toList, [], "c".toList], ["x".toList, "^".toList, "^".toList]].foldlM addRow
        (start ["a".toList, [], "b".toList]) = .ok draft ∧
      ∃ c, cellAt? draft.toTable.rows (0, 0) = some c ∧
        continuing draft.toTable.rows (0, 0) = [1, 2] := ⟨_, rfl, _, rfl, by decide⟩
  obtain ⟨counts, -, -, ends⟩ := rowSpan_counts_continuations accepted found
  rw [below] at counts ends
  exact ⟨draft, c, accepted, found, below, counts, ends (by decide)⟩

/-- A row that continues a cell of two columns in both of them counts twice. -/
theorem twiceContinued_exceeds :
    ¬ ∀ (first : List Text) (rest : List (List Text)) (draft : TableDraft),
      rest.foldlM addRow (start first) = .ok draft →
      ∀ r i c, cellAt? draft.toTable.rows (r, i) = some c → c.mergedUp = false →
        c.rowSpan = 1 + (continuing draft.toTable.rows (r, i)).dedup.length ∧
          r + c.rowSpan ≤ draft.toTable.rows.length := by
  intro counts
  have within := (counts ["a".toList, []] [["^".toList, "^".toList]] _ rfl 0 0 _ rfl rfl).2
  revert within
  decide

end TableDraft

end DocComment
