import DocComment.Proofs.Table.Draft
import DocComment.Proofs.Text.Space

/-!
# The pieces of a row

A row is cut into pieces at its pipes, and each piece is one column. A cell is a piece with the
empty pieces behind it. Blank cells at the end of a row that are one column wide need not be there,
so a table with fewer columns leaves them out.
-/

set_option autoImplicit false

namespace DocComment

namespace RowPieces

/-- The columns and the text of each cell: a piece takes the empty pieces behind it along. -/
def cells : List Text → List (Nat × Text)
  | [] => []
  | piece :: rest =>
    ((rest.takeWhile List.isEmpty).length + 1, Text.trim piece) ::
      cells (rest.dropWhile List.isEmpty)
termination_by pieces => pieces.length
decreasing_by exact Nat.lt_succ_of_le (List.dropWhile_sublist _).length_le

/-- How many cells at the end of a row are blank and one column wide; the last piece comes first.
An empty piece is such a cell only if it is alone, since it belongs to the piece before it. -/
def blanks : List Text → Nat
  | [] => 0
  | [piece] => if Text.isBlank piece then 1 else 0
  | last :: before =>
    if Text.isBlank last && !last.isEmpty then blanks before + 1 else 0

/-- The pieces of a row in a table with some columns. Blank cells at the end that stand beyond them
are left out. -/
def kept (columns : Nat) (pieces : List Text) : List Text :=
  pieces.take (pieces.length - min (blanks pieces.reverse) (pieces.length - columns))

/-! ## Cells -/

theorem mergeEmpty_eq (pieces : List Text) :
    TableDraft.mergeEmpty pieces = ((pieces.takeWhile List.isEmpty).length,
      (cells (pieces.dropWhile List.isEmpty)).map fun c =>
        ⟨c.1, 1, c.2 == mergeUpMark, c.2⟩) := by
  induction pieces with
  | nil => simp [TableDraft.mergeEmpty, cells]
  | cons piece rest ih =>
    rw [TableDraft.mergeEmpty, ih]
    by_cases empty : piece.isEmpty = true
    · simp [empty]
    · simp [empty, cells, TableDraft.cell]

/-- The cells that a table reads from pieces. -/
theorem draft_cells_eq (pieces : List Text) : TableDraft.cells pieces =
    (cells pieces).map fun c => ⟨c.1, 1, c.2 == mergeUpMark, c.2⟩ := by
  rw [TableDraft.cells, mergeEmpty_eq]
  cases pieces with
  | nil => rfl
  | cons piece rest =>
    by_cases empty : piece.isEmpty = true
    · obtain rfl : piece = [] := List.isEmpty_iff.mp empty
      simp [cells, TableDraft.cell]
    · simp [empty]

/-! ## The last piece -/

theorem takeWhile_concat {p : Text → Bool} {last : Text} (h : p last = false) (l : List Text) :
    (l ++ [last]).takeWhile p = l.takeWhile p := by
  induction l with
  | nil => simp [h]
  | cons a l ih => simp [List.takeWhile_cons, ih]

theorem dropWhile_concat {p : Text → Bool} {last : Text} (h : p last = false) (l : List Text) :
    (l ++ [last]).dropWhile p = l.dropWhile p ++ [last] := by
  induction l with
  | nil => simp [h]
  | cons a l ih =>
    simp only [List.cons_append, List.dropWhile_cons, ih]
    split <;> rfl

/-- A piece that is not empty is a cell of its own, and so is the first one. -/
theorem cells_concat {before : List Text} {last : Text} (own : last ≠ [] ∨ before = []) :
    cells (before ++ [last]) = cells before ++ [(1, Text.trim last)] := by
  induction before using cells.induct with
  | case1 => simp [cells]
  | case2 piece rest ih =>
    have shown : last ≠ [] := own.resolve_right (List.cons_ne_nil piece rest)
    have apart : last.isEmpty = false := by simpa using shown
    rw [List.cons_append, cells, cells, takeWhile_concat apart, dropWhile_concat apart,
      ih (.inl shown), List.cons_append]

/-- An empty piece widens the cell before it. -/
theorem cells_concat_empty {before : List Text} (nonempty : before ≠ []) :
    ∃ front c, cells (before ++ [[]]) = front ++ [c] ∧ 1 < c.1 := by
  induction before using cells.induct with
  | case1 => exact absurd rfl nonempty
  | case2 piece rest ih =>
    rw [List.cons_append, cells]
    by_cases ended : rest.dropWhile List.isEmpty = []
    · have empty : ∀ p ∈ rest ++ [[]], p.isEmpty = true := by
        simpa [or_imp, forall_and] using List.dropWhile_eq_nil_iff.mp ended
      rw [List.takeWhile_eq_self_iff.mpr empty, List.dropWhile_eq_nil_iff.mpr empty, cells]
      exact ⟨[], _, rfl, by simp⟩
    · obtain ⟨front, c, last, wide⟩ := ih ended
      have later : (rest ++ [[]]).dropWhile List.isEmpty = rest.dropWhile List.isEmpty ++ [[]] := by
        rw [List.dropWhile_append, if_neg (by simpa using ended)]
      rw [later, last]
      exact ⟨_ :: front, c, rfl, wide⟩

/-! ## Blank cells at the end -/

theorem blanks_own {last : Text} {before : List Text} (own : last ≠ [] ∨ before = []) :
    blanks (last :: before) = if Text.isBlank last then blanks before + 1 else 0 := by
  cases before with
  | nil => rfl
  | cons piece rest =>
    have shown : last ≠ [] := own.resolve_right (List.cons_ne_nil piece rest)
    simp [blanks, shown]

theorem kept_eq_self {columns : Nat} {pieces : List Text}
    (h : blanks pieces.reverse = 0 ∨ pieces.length ≤ columns) : kept columns pieces = pieces := by
  have none : min (blanks pieces.reverse) (pieces.length - columns) = 0 := by omega
  rw [kept, none, Nat.sub_zero, List.take_length]

theorem kept_concat (columns : Nat) {before : List Text} {last : Text}
    (own : last ≠ [] ∨ before = []) :
    kept columns (before ++ [last]) =
      if columns < before.length + 1 ∧ Text.isBlank last = true then kept columns before
      else before ++ [last] := by
  have atEnd : blanks (before ++ [last]).reverse =
      if Text.isBlank last then blanks before.reverse + 1 else 0 := by
    rw [List.reverse_concat, blanks_own (own.imp_right List.reverse_eq_nil_iff.mpr)]
  have length : (before ++ [last]).length = before.length + 1 := List.length_append
  split
  next counts =>
    rw [if_pos counts.2] at atEnd
    have fewer : before.length + 1 - min (blanks before.reverse + 1) (before.length + 1 - columns) =
        before.length - min (blanks before.reverse) (before.length - columns) := by
      omega
    rw [kept, atEnd, length, fewer, List.take_append_of_le_length (by omega)]
    rfl
  next stays =>
    refine kept_eq_self ?_
    rw [atEnd, length]
    by_cases blank : Text.isBlank last = true
    · exact .inr (Nat.not_lt.mp fun beyond => stays ⟨beyond, blank⟩)
    · exact .inl (if_neg blank)

theorem kept_concat_empty (columns : Nat) {before : List Text} (nonempty : before ≠ []) :
    kept columns (before ++ [[]]) = before ++ [[]] := by
  refine kept_eq_self (.inl ?_)
  rw [List.reverse_concat]
  cases h : before.reverse with
  | nil => exact absurd (List.reverse_eq_nil_iff.mp h) nonempty
  | cons piece rest => simp [blanks]

example : kept 1 [['a'], [' '], []] = [['a'], [' '], []] ∧
    kept 1 [['a'], [' '], [' ']] = [['a']] := by
  decide

/-! ## Cells of a table -/

/-- Whether the last cell of a row is left out depends on that cell alone. -/
theorem fitted_concat (columns : Nat) {pieces : List Text} {front : List (TableCell Char)}
    {c : TableCell Char} (h : TableDraft.cells pieces = front ++ [c]) :
    TableDraft.fitted columns pieces =
      if columns < pieces.length ∧ c.span = 1 ∧ c.body = [] then
        (TableDraft.dropPadding columns front.reverse).reverse
      else front ++ [c] := by
  have width : TableCell.width (c :: front.reverse) = pieces.length := by
    rw [← TableDraft.width_cells, h, ← TableCell.width_reverse (front ++ [c]), List.reverse_concat]
  rw [TableDraft.fitted, h, List.reverse_concat, TableDraft.dropPadding, width]
  split
  · rfl
  · simp

/-- A table takes the cells of the pieces that count. -/
theorem fitted_eq (columns : Nat) (pieces : List Text) :
    TableDraft.fitted columns pieces = TableDraft.cells (kept columns pieces) := by
  induction pieces using List.reverseRecOn with
  | nil => rfl
  | append_singleton before last ih =>
    by_cases own : last ≠ [] ∨ before = []
    · have cell : TableDraft.cells (before ++ [last]) =
          TableDraft.cells before ++ [TableDraft.cell 1 last] := by
        rw [draft_cells_eq, draft_cells_eq, cells_concat own, List.map_append]
        rfl
      have blank : (TableDraft.cell 1 last).span = 1 ∧ (TableDraft.cell 1 last).body = [] ↔
          Text.isBlank last = true := by
        simp [TableDraft.cell, Text.trim_eq_nil_iff]
      rw [fitted_concat columns cell, kept_concat columns own, List.length_append,
        List.length_singleton]
      simp only [blank]
      split
      · exact ih
      · exact cell.symm
    · obtain ⟨rfl, nonempty⟩ : last = [] ∧ before ≠ [] := by simpa using own
      obtain ⟨front, c, read, wide⟩ := cells_concat_empty nonempty
      have cell : TableDraft.cells (before ++ [[]]) = front.map _ ++ [_] :=
        (draft_cells_eq _).trans (congrArg (List.map _) read |>.trans List.map_append)
      have wider : ¬ c.1 = 1 := Nat.ne_of_gt wide
      rw [fitted_concat columns cell, kept_concat_empty columns nonempty, cell]
      simp [wider]

end RowPieces

end DocComment
