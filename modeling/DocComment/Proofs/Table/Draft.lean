import DocComment.Proofs.Table.Grid

/-!
# Rows of an open table

What a new row does follows from the cells above it: a cell that asks for the one above is merged
up if there is one, which then covers one more row. Nothing else of the earlier rows changes, and
the places that the table keeps are again those that climbing up finds.
-/

set_option autoImplicit false

namespace DocComment

variable {α : Type}

/-- The places that the cells of a row continue, from a column on, where `above` is the place of
the cell above each column. -/
def TableCell.continued (above : Nat → Option (Nat × Nat)) :
    Nat → List (TableCell α) → List (Nat × Nat)
  | _, [] => []
  | column, c :: rest =>
    (if c.mergedUp then (above column).toList else []) ++ continued above (column + c.span) rest

theorem TableCell.continued_eq_of_shape {β : Type} {a : List (TableCell α)}
    {b : List (TableCell β)} (same : a.map shape = b.map shape)
    (above : Nat → Option (Nat × Nat)) (column : Nat) :
    continued above column a = continued above column b := by
  replace same := forall₂_shape same
  induction same generalizing column with
  | nil => rfl
  | cons here _ ih => rw [continued, continued, here.1, here.2, ih]

theorem TableCell.exists_of_mem_continued {above : Nat → Option (Nat × Nat)} {column : Nat}
    {cells : List (TableCell α)} {place : Nat × Nat} (h : place ∈ continued above column cells) :
    ∃ n, column ≤ n ∧ above n = some place := by
  induction cells generalizing column with
  | nil => cases h
  | cons c rest ih =>
    rcases List.mem_append.mp h with here | later
    · by_cases merged : c.mergedUp = true
      · exact ⟨column, Nat.le_refl _, by simpa [merged] using here⟩
      · simp [merged] at here
    · obtain ⟨n, le, found⟩ := ih later
      exact ⟨n, by omega, found⟩

namespace TableDraft

open TableRow

/-! ## One row -/

/-- The cells of a row from a column on: one that asks for the cell above is merged up if there is
one. -/
def settle (above : Nat → Option (Nat × Nat)) :
    Nat → List (TableCell Char) → List (TableCell Char)
  | _, [] => []
  | column, c :: rest =>
    { c with mergedUp := c.mergedUp && (above column).isSome } ::
      settle above (column + c.span) rest

theorem width_settle (above : Nat → Option (Nat × Nat)) (column : Nat)
    (cells : List (TableCell Char)) :
    TableCell.width (settle above column cells) = TableCell.width cells := by
  induction cells generalizing column with
  | nil => rfl
  | cons c rest ih => rw [settle, TableCell.width, TableCell.width, ih]

theorem continued_settle (above : Nat → Option (Nat × Nat)) (column : Nat)
    (cells : List (TableCell Char)) :
    TableCell.continued above column (settle above column cells) =
      TableCell.continued above column cells := by
  induction cells generalizing column with
  | nil => rfl
  | cons c rest ih =>
    rw [settle, TableCell.continued, TableCell.continued, ih]
    by_cases merged : c.mergedUp = true
    · cases above column <;> simp [merged]
    · simp [merged]

/-- Each cell that is merged up continues one. -/
theorem length_continued (above : Nat → Option (Nat × Nat)) (column : Nat)
    (cells : List (TableCell Char)) :
    (TableCell.continued above column cells).length =
      (settle above column cells).countP TableCell.mergedUp := by
  induction cells generalizing column with
  | nil => rfl
  | cons c rest ih =>
    rw [TableCell.continued, settle, List.length_append, List.countP_cons, ih]
    by_cases merged : c.mergedUp = true
    · cases above column <;> simp [merged, Nat.add_comm]
    · simp [merged]

theorem mem_settle {above : Nat → Option (Nat × Nat)} {column : Nat}
    {cells : List (TableCell Char)} {c : TableCell Char} (h : c ∈ settle above column cells) :
    ∃ d ∈ cells, c = { d with mergedUp := c.mergedUp } ∧ (c.mergedUp = true → d.mergedUp = true) ∧
      (c.mergedUp = true → ∃ n, (above n).isSome) := by
  induction cells generalizing column with
  | nil => cases h
  | cons d rest ih =>
    rcases List.mem_cons.mp h with rfl | later
    · refine ⟨d, List.mem_cons_self, rfl, ?_, ?_⟩
      · simp only [Bool.and_eq_true]
        exact And.left
      · simp only [Bool.and_eq_true]
        exact fun both => ⟨column, both.2⟩
    · obtain ⟨e, known, same⟩ := ih later
      exact ⟨e, List.mem_cons_of_mem d known, same⟩

/-- The places kept for the columns after a row, from a cell on. -/
def keep (row : Nat) :
    Nat → Nat → List (TableCell Char) → List (Option (Nat × Nat)) → List (Option (Nat × Nat))
  | _, _, [], origins => origins
  | index, column, c :: rest, origins =>
    keep row (index + 1) (column + c.span) rest
      (if c.mergedUp then origins else cover (row, index) column c.span origins)

theorem getElem?_cover (place : Nat × Nat) (column span : Nat)
    (origins : List (Option (Nat × Nat))) (n : Nat) :
    (cover place column span origins)[n]? = origins[n]?.map fun origin =>
      if column ≤ n ∧ n < column + span then some place else origin :=
  List.getElem?_mapIdx

theorem length_cover (place : Nat × Nat) (column span : Nat)
    (origins : List (Option (Nat × Nat))) :
    (cover place column span origins).length = origins.length := List.length_mapIdx

/-- A cell does not change what is kept for the columns beside it. -/
theorem join_cover_outside (place : Nat × Nat) {column span n : Nat}
    (origins : List (Option (Nat × Nat))) (outside : n < column ∨ column + span ≤ n) :
    (cover place column span origins)[n]?.join = origins[n]?.join := by
  have beside : ¬ (column ≤ n ∧ n < column + span) := by omega
  simp [getElem?_cover, beside]

theorem length_keep (row index column : Nat) (cells : List (TableCell Char))
    (origins : List (Option (Nat × Nat))) :
    (keep row index column cells origins).length = origins.length := by
  induction cells generalizing index column origins with
  | nil => rfl
  | cons c rest ih =>
    rw [keep, ih]
    by_cases merged : c.mergedUp = true <;> simp [merged, length_cover]

theorem join_keep (row index column : Nat) {cells : List (TableCell Char)}
    {origins : List (Option (Nat × Nat))}
    (fits : column + TableCell.width cells ≤ origins.length) (n : Nat) :
    (keep row index column cells origins)[n]?.join =
      if n < column then origins[n]?.join
      else ((TableCell.own? (n - column) cells).map fun i => (row, index + i)).or
        origins[n]?.join := by
  induction cells generalizing index column origins with
  | nil => simp [keep, TableCell.own?]
  | cons c rest ih =>
    rw [TableCell.width] at fits
    have bound : column + c.span + TableCell.width rest ≤
        (if c.mergedUp then origins else cover (row, index) column c.span origins).length := by
      by_cases merged : c.mergedUp = true
      · simp only [merged, if_true]
        omega
      · simp only [merged, Bool.false_eq_true, if_false, length_cover]
        omega
    rw [keep, ih _ _ bound]
    by_cases before : n < column
    · have kept : n < column + c.span := by omega
      rw [if_pos kept, if_pos before]
      by_cases merged : c.mergedUp = true
      · rw [if_pos merged]
      · rw [if_neg merged, join_cover_outside _ _ (.inl before)]
    · rw [if_neg before, TableCell.own?]
      by_cases here : n < column + c.span
      · have inside : n < origins.length := by omega
        rw [if_pos here, if_pos (by omega : n - column < c.span)]
        by_cases merged : c.mergedUp = true
        · simp [merged]
        · have covers : column ≤ n ∧ n < column + c.span := by omega
          simp [merged, getElem?_cover, covers, List.getElem?_eq_getElem inside]
      · rw [if_neg here, if_neg (by omega : ¬ n - column < c.span)]
        have beyond : (if c.mergedUp then origins
            else cover (row, index) column c.span origins)[n]?.join = origins[n]?.join := by
          by_cases merged : c.mergedUp = true
          · rw [if_pos merged]
          · rw [if_neg merged, join_cover_outside _ _ (.inr (by omega))]
        rw [beyond, Option.map_map, Nat.sub_add_eq]
        congr 2
        funext i
        simp only [Function.comp_apply, Prod.mk.injEq, true_and]
        omega

theorem place_eq (above : Nat → Option (Nat × Nat)) (row index column : Nat)
    (cells : List (TableCell Char)) (draft : TableDraft)
    (known : ∀ n, column ≤ n → draft.origins[n]?.join = above n) :
    place row index column cells draft = (settle above column cells, { draft with
      rows := raise (fun p => (TableCell.continued above column cells).count p) draft.rows
      origins := keep row index column (settle above column cells) draft.origins }) := by
  induction cells generalizing index column draft with
  | nil => simp [place, settle, keep, TableCell.continued, raise_zero]
  | cons c rest ih =>
    have here : draft.origins[column]?.join = above column := known column (Nat.le_refl _)
    rw [place]
    by_cases merges : c.mergedUp = true ∧ (above column).isSome
    · obtain ⟨merged, some⟩ := merges
      obtain ⟨origin, found⟩ := Option.isSome_iff_exists.mp some
      have later := ih (index + 1) (column + c.span)
        { draft with rows := extendDown origin draft.rows } fun n le => known n (by omega)
      have merges : { c with mergedUp := true } = c := by rw [← merged]
      simp only [merged, here, found, if_true, later, settle, keep, TableCell.continued,
        raise_extendDown, Option.isSome_some, Bool.and_true, Option.toList_some,
        List.singleton_append, merges]
    · have own : (c.mergedUp && (above column).isSome) = false := by simpa using merges
      have nothing : (if c.mergedUp then draft.origins[column]?.join else none) = none := by
        rw [here]
        by_cases merged : c.mergedUp = true
        · simpa [merged] using own
        · simp [merged]
      have free : (if c.mergedUp then (above column).toList else []) = [] := by
        by_cases merged : c.mergedUp = true
        · simpa [merged] using own
        · simp [merged]
      have later := ih (index + 1) (column + c.span)
        { draft with origins := cover (row, index) column c.span draft.origins } fun n le => by
          rw [← known n (by omega)]
          exact join_cover_outside _ _ (.inr le)
      simp only [nothing, later, settle, keep, TableCell.continued, own, free, List.nil_append]
      simp

/-! ## What is kept of a row -/

/-- A cell as it is before its row is placed. -/
structure Fresh (c : TableCell Char) : Prop where
  span : 0 < c.span
  rowSpan : c.rowSpan = 1
  mergedUp : c.mergedUp = (c.body == mergeUpMark)

theorem fresh_cell (n : Nat) (raw : Text) : Fresh (cell (n + 1) raw) := ⟨Nat.succ_pos n, rfl, rfl⟩

theorem fresh_mergeEmpty (raw : List Text) : ∀ c ∈ (mergeEmpty raw).2, Fresh c := by
  induction raw with
  | nil => simp [mergeEmpty]
  | cons t rest ih =>
    rw [mergeEmpty]
    by_cases empty : t.isEmpty = true
    · simpa [empty] using ih
    · simpa [empty, fresh_cell] using ih

theorem fresh_cells (raw : List Text) : ∀ c ∈ cells raw, Fresh c := by
  have merged := fresh_mergeEmpty raw
  unfold cells
  split
  next cells found =>
    rwa [found] at merged
  next n cells found =>
    rw [found] at merged
    exact List.forall_mem_cons.mpr ⟨fresh_cell n [], merged⟩

/-- Every piece of a row is one column. -/
theorem width_mergeEmpty (raw : List Text) :
    (mergeEmpty raw).1 + TableCell.width (mergeEmpty raw).2 = raw.length := by
  induction raw with
  | nil => rfl
  | cons t rest ih =>
    rw [mergeEmpty, List.length_cons]
    by_cases empty : t.isEmpty = true
    · simp only [empty, if_true]
      omega
    · simp only [empty, Bool.false_eq_true, if_false, TableCell.width, cell]
      omega

theorem width_cells (raw : List Text) : TableCell.width (cells raw) = raw.length := by
  have merged := width_mergeEmpty raw
  unfold cells
  split
  next cells found =>
    rw [found] at merged
    simpa using merged
  next n cells found =>
    rw [found] at merged
    exact merged

/-- The cells of a row for a table, without the padding at its end. -/
def fitted (columns : Nat) (raw : List Text) : List (TableCell Char) :=
  (dropPadding columns (cells raw).reverse).reverse

theorem addRow_eq (draft : TableDraft) (raw : List Text) :
    draft.addRow raw =
      if TableCell.width (fitted draft.columns raw) = draft.columns then
        .ok (draft.append (fitted draft.columns raw))
      else .error (TableCell.width (fitted draft.columns raw)) := rfl

theorem dropPadding_suffix (columns : Nat) (cells : List (TableCell Char)) :
    dropPadding columns cells <:+ cells := by
  induction cells with
  | nil => exact List.suffix_rfl
  | cons last rest ih =>
    rw [dropPadding]
    split
    · exact ih.trans (List.suffix_cons last rest)
    · exact List.suffix_rfl

theorem fresh_fitted (columns : Nat) (raw : List Text) : ∀ c ∈ fitted columns raw, Fresh c :=
  fun c mem => fresh_cells raw c
    (List.mem_reverse.mp ((dropPadding_suffix columns _).subset (List.mem_reverse.mp mem)))

theorem rowSpan_settle (above : Nat → Option (Nat × Nat)) (column : Nat)
    {cells : List (TableCell Char)} (fresh : ∀ c ∈ cells, Fresh c) :
    ∀ c ∈ settle above column cells, c.rowSpan = 1 := by
  intro c mem
  obtain ⟨d, inside, same, -⟩ := mem_settle mem
  rw [same]
  exact (fresh d inside).rowSpan

/-! ## Whole tables -/

/-- The rows of an open table fill its columns, and what is kept for each column is the place of
the cell that a row below would continue. -/
structure Grid (draft : TableDraft) : Prop where
  widths : ∀ row ∈ draft.rows, row.width = draft.columns
  spans : ∀ row ∈ draft.rows, ∀ c ∈ row.cells, 0 < c.span
  length : draft.origins.length = draft.columns
  origins : ∀ n, draft.origins[n]?.join = above? draft.rows n draft.rows.length
  /-- Nothing is above the first row. -/
  top : ∀ row ∈ draft.rows.head?, ∀ c ∈ row.cells, c.mergedUp = false

/-- The place of the cell that a row below all others would continue at a column. -/
def above (draft : TableDraft) (column : Nat) : Option (Nat × Nat) :=
  above? draft.rows column draft.rows.length

theorem grid_empty (columns : Nat) : Grid ⟨columns, none, [], List.replicate columns none⟩ where
  widths := by simp
  spans := by simp
  length := List.length_replicate
  origins n := by
    by_cases inside : n < columns <;> simp [above?, inside]
  top := by simp

/-- A row below all others. -/
theorem Grid.append_eq {draft : TableDraft} (grid : draft.Grid) (cells : List (TableCell Char)) :
    draft.append cells = { draft with
      rows := raise (fun p => (TableCell.continued draft.above 0 cells).count p) draft.rows ++
        [⟨false, settle draft.above 0 cells⟩]
      origins := keep draft.rows.length 0 0 (settle draft.above 0 cells) draft.origins } := by
  rw [append, place_eq draft.above _ _ _ _ _ fun n _ => grid.origins n]

theorem Grid.length_append {draft : TableDraft} (grid : draft.Grid)
    (cells : List (TableCell Char)) :
    (draft.append cells).rows.length = draft.rows.length + 1 := by
  simp [grid.append_eq]

theorem Grid.columns_append {draft : TableDraft} (grid : draft.Grid)
    (cells : List (TableCell Char)) : (draft.append cells).columns = draft.columns := by
  rw [grid.append_eq]

theorem above?_raise (more : Nat × Nat → Nat) (rows : List (TableRow Char)) (column row : Nat) :
    above? (raise more rows) column row = above? rows column row :=
  above?_eq_of_shape (by rw [map_shape_raise]) column

theorem mem_raise {more : Nat × Nat → Nat} {rows : List (TableRow Char)} {row : TableRow Char}
    (h : row ∈ raise more rows) : ∃ other ∈ rows, ∃ lift,
      row = { other with cells := lengthen lift other.cells } := by
  obtain ⟨r, found⟩ := List.mem_iff_getElem?.mp h
  rw [getElem?_raise] at found
  obtain ⟨other, known, same⟩ := Option.map_eq_some_iff.mp found
  exact ⟨other, List.mem_of_getElem? known, _, same.symm⟩

theorem mem_lengthen {more : Nat → Nat} {cells : List (TableCell Char)} {c : TableCell Char}
    (h : c ∈ lengthen more cells) :
    ∃ d ∈ cells, ∃ n, c = { d with rowSpan := d.rowSpan + n } := by
  obtain ⟨i, found⟩ := List.mem_iff_getElem?.mp h
  rw [getElem?_lengthen] at found
  obtain ⟨d, known, same⟩ := Option.map_eq_some_iff.mp found
  exact ⟨d, List.mem_of_getElem? known, _, same.symm⟩

theorem Grid.append {draft : TableDraft} (grid : draft.Grid) {cells : List (TableCell Char)}
    (width : TableCell.width cells = draft.columns) (fresh : ∀ c ∈ cells, Fresh c) :
    (draft.append cells).Grid := by
  rw [grid.append_eq]
  constructor
  · intro row known
    rcases List.mem_append.mp known with old | new
    · obtain ⟨other, mem, more, rfl⟩ := mem_raise old
      rw [← grid.widths other mem]
      exact TableCell.width_eq_of_shape (map_shape_lengthen more other.cells)
    · rw [List.mem_singleton.mp new]
      exact (width_settle _ _ _).trans width
  · intro row known c cell
    rcases List.mem_append.mp known with old | new
    · obtain ⟨other, mem, more, rfl⟩ := mem_raise old
      obtain ⟨d, inside, n, rfl⟩ := mem_lengthen cell
      exact grid.spans other mem d inside
    · rw [List.mem_singleton.mp new] at cell
      obtain ⟨d, inside, same, -⟩ := mem_settle cell
      rw [same]
      exact (fresh d inside).span
  · exact (length_keep _ _ _ _ _).trans grid.length
  · intro n
    have fits : 0 + TableCell.width (settle draft.above 0 cells) ≤ draft.origins.length := by
      rw [width_settle, width, grid.length]
      omega
    have last : (raise (fun p => (TableCell.continued draft.above 0 cells).count p) draft.rows ++
        [⟨false, settle draft.above 0 cells⟩])[draft.rows.length]? =
          some ⟨false, settle draft.above 0 cells⟩ := by simp
    have before : above? (raise (fun p => (TableCell.continued draft.above 0 cells).count p)
        draft.rows ++ [⟨false, settle draft.above 0 cells⟩]) n draft.rows.length =
          above? draft.rows n draft.rows.length := by
      rw [above?_append _ n (by simp), above?_raise]
    rw [join_keep _ _ _ fits, if_neg (Nat.not_lt_zero n), List.length_append, length_raise,
      List.length_singleton, above?, last, before, grid.origins, Nat.sub_zero, Option.bind_some]
    cases TableCell.own? n (settle draft.above 0 cells) <;> simp
  · intro row first c cell
    rw [List.head?_eq_getElem?] at first
    by_cases empty : draft.rows = []
    · have new : row = ⟨false, settle draft.above 0 cells⟩ := by
        simpa [empty, raise] using first.symm
      rw [new] at cell
      obtain ⟨-, -, -, -, found⟩ := mem_settle cell
      by_contra merged
      obtain ⟨n, some⟩ := found (by simpa using merged)
      simp [above, empty, above?] at some
    · have old : row ∈ (raise (fun p => (TableCell.continued draft.above 0 cells).count p)
          draft.rows)[0]? := by
        rwa [List.getElem?_append_left (by simpa using List.length_pos_iff.mpr empty)] at first
      rw [getElem?_raise] at old
      obtain ⟨other, known, rfl⟩ := Option.map_eq_some_iff.mp old
      obtain ⟨d, inside, n, rfl⟩ := mem_lengthen cell
      exact grid.top other (by rw [List.head?_eq_getElem?]; exact known) d inside

end TableDraft

end DocComment
