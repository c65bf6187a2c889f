import DocComment.Block.Table
import Mathlib.Data.List.Basic
import Mathlib.Data.List.Count
import Mathlib.Data.List.Forall2

/-!
# The columns of a table

Each cell covers some columns of its row. A cell that is merged up continues the lowest cell over
its first column that is not merged up itself. A table that is open keeps, for every column, the
place of the cell that the next row would continue there: it is the one that climbing up from below
the last row finds.
-/

set_option autoImplicit false

namespace DocComment

variable {α : Type}

/-! ## Places -/

namespace TableCell

/-- What a cell takes up. -/
def shape (c : TableCell α) : Nat × Bool := (c.span, c.mergedUp)

/-- The number of the cell over a column, unless that cell continues another. -/
def own? : Nat → List (TableCell α) → Option Nat
  | _, [] => none
  | column, c :: rest =>
    if column < c.span then if c.mergedUp then none else some 0
    else (own? (column - c.span) rest).map (· + 1)

theorem width_append (a b : List (TableCell α)) : width (a ++ b) = width a + width b := by
  induction a with
  | nil => simp [width]
  | cons c a ih =>
    simp only [List.cons_append, width, ih]
    omega

theorem width_reverse (cells : List (TableCell α)) : width cells.reverse = width cells := by
  induction cells with
  | nil => rfl
  | cons c rest ih =>
    rw [List.reverse_cons, width_append, ih]
    simp only [width]
    omega

theorem forall₂_shape {β : Type} {a : List (TableCell α)} {b : List (TableCell β)}
    (same : a.map shape = b.map shape) :
    List.Forall₂ (fun c d => c.span = d.span ∧ c.mergedUp = d.mergedUp) a b := by
  rw [← List.forall₂_eq_eq_eq, List.forall₂_map_left_iff, List.forall₂_map_right_iff] at same
  exact same.imp fun c d equal => Prod.mk.inj equal

theorem width_eq_of_shape {β : Type} {a : List (TableCell α)} {b : List (TableCell β)}
    (same : a.map shape = b.map shape) : width a = width b := by
  replace same := forall₂_shape same
  induction same with
  | nil => rfl
  | cons here _ ih => rw [width, width, here.1, ih]

theorem own?_eq_of_shape {β : Type} {a : List (TableCell α)} {b : List (TableCell β)}
    (same : a.map shape = b.map shape) (column : Nat) : own? column a = own? column b := by
  replace same := forall₂_shape same
  induction same generalizing column with
  | nil => rfl
  | cons here _ ih => rw [own?, own?, here.1, here.2, ih]

/-- A cell that is found is there, continues no other and covers the column. -/
theorem own?_eq_some {cells : List (TableCell α)} {column index : Nat}
    (found : own? column cells = some index) : column < width cells ∧
      ∃ c, cells[index]? = some c ∧ c.mergedUp = false := by
  induction cells generalizing column index with
  | nil => cases found
  | cons c rest ih =>
    rw [own?] at found
    rw [width]
    by_cases here : column < c.span
    · rw [if_pos here] at found
      by_cases merged : c.mergedUp = true
      · simp [merged] at found
      · rw [if_neg merged] at found
        cases found
        exact ⟨by omega, c, rfl, by simpa using merged⟩
    · rw [if_neg here] at found
      obtain ⟨before, later, rfl⟩ := Option.map_eq_some_iff.mp found
      obtain ⟨inside, d, known, own⟩ := ih later
      exact ⟨by omega, d, by simpa using known, own⟩

/-- Where no cell continues another, every column is covered. -/
theorem own?_isSome {cells : List (TableCell α)} (own : ∀ c ∈ cells, c.mergedUp = false)
    {column : Nat} (inside : column < width cells) : (own? column cells).isSome := by
  induction cells generalizing column with
  | nil => exact absurd inside (Nat.not_lt_zero column)
  | cons c rest ih =>
    obtain ⟨here, later⟩ := List.forall_mem_cons.mp own
    rw [own?]
    rw [width] at inside
    by_cases first : column < c.span
    · simp [first, here]
    · simpa [first] using ih later (by omega)

end TableCell

namespace TableRow

/-- What a row takes up, cell by cell. -/
def shape (row : TableRow α) : List (Nat × Bool) := row.cells.map TableCell.shape

/-- The cell at a place: the number of its row, and its number in that row. -/
def cellAt? (rows : List (TableRow α)) (place : Nat × Nat) : Option (TableCell α) :=
  rows[place.1]?.bind fun row => row.cells[place.2]?

/-- The place of the lowest cell over a column that continues no other, in the rows above the one
with the number given last. -/
def above? (rows : List (TableRow α)) (column : Nat) : Nat → Option (Nat × Nat)
  | 0 => none
  | row + 1 =>
    match rows[row]?.bind fun r => TableCell.own? column r.cells with
    | some index => some (row, index)
    | none => above? rows column row

/-- In tables of the same shape there are rows with the same numbers. -/
theorem rows_of_shape {β : Type} {a : Option (TableRow α)} {b : Option (TableRow β)}
    (same : a.map shape = b.map shape) :
    a = none ∧ b = none ∨ ∃ r s, a = some r ∧ b = some s ∧ r.shape = s.shape := by
  cases a with
  | none =>
    cases b with
    | none => exact .inl ⟨rfl, rfl⟩
    | some s => cases same
  | some r =>
    cases b with
    | none => cases same
    | some s => exact .inr ⟨r, s, rfl, rfl, Option.some.inj same⟩

theorem above?_eq_of_shape {β : Type} {a : List (TableRow α)} {b : List (TableRow β)} {row : Nat}
    (same : (a.map shape).take row = (b.map shape).take row) (column : Nat) :
    above? a column row = above? b column row := by
  induction row with
  | zero => rfl
  | succ row ih =>
    have before : (a.map shape).take row = (b.map shape).take row := by
      simpa [List.take_take] using congrArg (List.take row) same
    have last : a[row]?.map shape = b[row]?.map shape := by
      simpa [List.getElem?_take] using congrArg (·[row]?) same
    have here : (a[row]?.bind fun r => TableCell.own? column r.cells) =
        b[row]?.bind fun r => TableCell.own? column r.cells := by
      obtain ⟨none, none'⟩ | ⟨r, s, first, second, equal⟩ := rows_of_shape last
      · rw [none, none']
        rfl
      · rw [first, second]
        exact TableCell.own?_eq_of_shape equal column
    rw [above?, above?, here, ih before]

theorem above?_append {rows : List (TableRow α)} (more : List (TableRow α)) (column : Nat)
    {row : Nat} (inside : row ≤ rows.length) :
    above? (rows ++ more) column row = above? rows column row := by
  apply above?_eq_of_shape
  rw [List.map_append, List.take_append_of_le_length (by simpa using inside)]

theorem above?_eq_some {rows : List (TableRow α)} {column row : Nat} {place : Nat × Nat}
    (found : above? rows column row = some place) : place.1 < row ∧
      ∃ c, cellAt? rows place = some c ∧ c.mergedUp = false := by
  induction row with
  | zero => cases found
  | succ row ih =>
    rw [above?] at found
    split at found
    next index here =>
      cases found
      obtain ⟨r, known, own⟩ := Option.bind_eq_some_iff.mp here
      obtain ⟨-, c, cell, free⟩ := TableCell.own?_eq_some own
      exact ⟨Nat.lt_succ_self row, c, by simp [cellAt?, known, cell], free⟩
    next =>
      obtain ⟨lower, cell⟩ := ih found
      exact ⟨by omega, cell⟩

/-- Over each column of a table whose first row continues nothing there is a cell. -/
theorem above?_isSome {rows : List (TableRow α)} {columns column : Nat}
    (widths : ∀ row ∈ rows, row.width = columns)
    (top : ∀ row ∈ rows.head?, ∀ c ∈ row.cells, c.mergedUp = false) (inside : column < columns)
    {row : Nat} (below : 0 < row) (nonempty : rows ≠ []) : (above? rows column row).isSome := by
  obtain ⟨first, rest, rfl⟩ := List.exists_cons_of_ne_nil nonempty
  have start : (above? (first :: rest) column 1).isSome := by
    have covered := TableCell.own?_isSome (top first rfl)
      (by rw [← TableRow.width, widths first List.mem_cons_self]; exact inside)
    obtain ⟨index, own⟩ := Option.isSome_iff_exists.mp covered
    simp [above?, own]
  induction row with
  | zero => omega
  | succ row ih =>
    by_cases one : row = 0
    · rw [one]
      exact start
    · rw [above?]
      split
      · rfl
      · exact ih (by omega)

end TableRow

/-! ## Cells that cover more rows -/

namespace TableDraft

open TableRow

/-- More rows for every cell of a row: as many as are given for its number. -/
def lengthen (more : Nat → Nat) (cells : List (TableCell Char)) : List (TableCell Char) :=
  cells.mapIdx fun i c => { c with rowSpan := c.rowSpan + more i }

theorem getElem?_lengthen (more : Nat → Nat) (cells : List (TableCell Char)) (i : Nat) :
    (lengthen more cells)[i]? = cells[i]?.map fun c => { c with rowSpan := c.rowSpan + more i } :=
  List.getElem?_mapIdx

theorem lengthen_zero (cells : List (TableCell Char)) : lengthen (fun _ => 0) cells = cells := by
  apply List.ext_getElem?
  intro i
  rw [getElem?_lengthen]
  cases cells[i]? <;> rfl

theorem lengthen_lengthen (more most : Nat → Nat) (cells : List (TableCell Char)) :
    lengthen most (lengthen more cells) = lengthen (fun i => more i + most i) cells := by
  apply List.ext_getElem?
  intro i
  simp only [getElem?_lengthen, Option.map_map]
  cases cells[i]? with
  | none => rfl
  | some c => simp [Nat.add_assoc]

theorem map_shape_lengthen (more : Nat → Nat) (cells : List (TableCell Char)) :
    (lengthen more cells).map TableCell.shape = cells.map TableCell.shape := by
  apply List.ext_getElem?
  intro i
  rw [List.getElem?_map, List.getElem?_map, getElem?_lengthen]
  cases cells[i]? <;> rfl

/-- More rows for every cell: as many as are given for its place. -/
def raise (more : Nat × Nat → Nat) (rows : List (TableRow Char)) : List (TableRow Char) :=
  rows.mapIdx fun r row => { row with cells := lengthen (fun i => more (r, i)) row.cells }

@[simp]
theorem length_raise (more : Nat × Nat → Nat) (rows : List (TableRow Char)) :
    (raise more rows).length = rows.length := by
  simp [raise]

theorem getElem?_raise (more : Nat × Nat → Nat) (rows : List (TableRow Char)) (r : Nat) :
    (raise more rows)[r]? = rows[r]?.map fun row =>
      { row with cells := lengthen (fun i => more (r, i)) row.cells } :=
  List.getElem?_mapIdx

theorem cellAt?_raise (more : Nat × Nat → Nat) (rows : List (TableRow Char)) (place : Nat × Nat) :
    cellAt? (raise more rows) place =
      (cellAt? rows place).map fun c => { c with rowSpan := c.rowSpan + more place } := by
  rw [cellAt?, cellAt?, getElem?_raise]
  cases rows[place.1]? with
  | none => rfl
  | some row => exact getElem?_lengthen _ row.cells place.2

@[simp]
theorem map_shape_raise (more : Nat × Nat → Nat) (rows : List (TableRow Char)) :
    (raise more rows).map TableRow.shape = rows.map TableRow.shape := by
  apply List.ext_getElem?
  intro r
  rw [List.getElem?_map, List.getElem?_map, getElem?_raise]
  cases rows[r]? with
  | none => rfl
  | some row => exact congrArg some (map_shape_lengthen _ row.cells)

theorem raise_zero (rows : List (TableRow Char)) : raise (fun _ => 0) rows = rows := by
  apply List.ext_getElem?
  intro r
  rw [getElem?_raise]
  cases rows[r]? with
  | none => rfl
  | some row => simp [lengthen_zero]

theorem raise_raise (more most : Nat × Nat → Nat) (rows : List (TableRow Char)) :
    raise most (raise more rows) = raise (fun place => more place + most place) rows := by
  apply List.ext_getElem?
  intro r
  simp only [getElem?_raise, Option.map_map]
  cases rows[r]? with
  | none => rfl
  | some row => simp [lengthen_lengthen]

theorem extendDown_eq (place : Nat × Nat) (rows : List (TableRow Char)) :
    extendDown place rows = raise (fun other => if other = place then 1 else 0) rows := by
  have cells (row : TableRow Char) (r : Nat) : (if place.1 = r then
      row.cells.modify place.2 fun c => { c with rowSpan := c.rowSpan + 1 } else row.cells) =
        lengthen (fun i => if (r, i) = place then 1 else 0) row.cells := by
    apply List.ext_getElem?
    intro i
    rw [getElem?_lengthen]
    by_cases here : place.1 = r
    · rw [if_pos here, List.getElem?_modify]
      by_cases cell : place.2 = i
      · simp [← here, ← cell]
      · simp [cell, Prod.ext_iff, Ne.symm cell]
    · simp [here, Prod.ext_iff, Ne.symm here]
  apply List.ext_getElem?
  intro r
  rw [extendDown, List.getElem?_modify, getElem?_raise]
  cases rows[r]? with
  | none => rfl
  | some row =>
    rw [Option.map_some, ← cells]
    by_cases here : place.1 = r <;> simp [here]

/-- One more row for the cell at a place, and for those at some other places. -/
theorem raise_extendDown (place : Nat × Nat) (places : List (Nat × Nat))
    (rows : List (TableRow Char)) :
    raise (fun other => places.count other) (extendDown place rows) =
      raise (fun other => (place :: places).count other) rows := by
  rw [extendDown_eq, raise_raise]
  congr 1
  funext other
  rw [List.count_cons]
  by_cases same : other = place
  · simp [same, Nat.add_comm]
  · simp [same, Ne.symm same]

end TableDraft

end DocComment
