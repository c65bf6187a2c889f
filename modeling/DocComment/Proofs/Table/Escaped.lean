import DocComment.Line.TableRow
import DocComment.Proofs.Text.Space

/-!
# Cells written as a row

A row spells a pipe that belongs to a cell with a backslash in front. What is read from such a row
are the cells that it was written from, unless one of them ends in a backslash: that backslash then
takes the pipe behind the cell into the cell.
-/

set_option autoImplicit false

namespace DocComment

namespace Text

theorem trim_between {t before after : Text} (tight : t.Tight)
    (front : ∀ c ∈ before, isSpace c = true) (back : ∀ c ∈ after, isSpace c = true) :
    trim (before ++ t ++ after) = t := by
  have start : trimStart (before ++ t ++ after) = t ++ after := by
    obtain ⟨⟨c, rest, rfl, solid⟩, -⟩ := tight
    rw [List.append_assoc, List.cons_append, trimStart_append front solid]
  have solid : ∀ c ∈ t.getLast?, isSpace c = false := tight.getLast?_append []
  rw [trim, start, trimEnd_append fun _ => solid, trimEnd_blank back, List.append_nil]

end Text

namespace TableLine

/-- A cell with a backslash in front of each pipe. -/
def escaped (cell : Text) : Text := cell.flatMap fun c => if c = '|' then ['\\', '|'] else [c]

def joined (cells : List Text) : Text := ['|'].intercalate (cells.map escaped)

/-- The row of some cells. -/
def written (cells : List Text) : Text := '|' :: (joined cells ++ ['|'])

/-- Whether a cell can have a pipe behind it that does not belong to it. -/
def Closed (cell : Text) : Prop := cell.getLast? ≠ some '\\'

instance (cell : Text) : Decidable (Closed cell) := inferInstanceAs (Decidable (_ ≠ _))

@[simp]
theorem escaped_nil : escaped [] = [] := rfl

theorem escaped_pipe (cell : Text) : escaped ('|' :: cell) = '\\' :: '|' :: escaped cell := rfl

theorem escaped_cons {c : Char} (h : c ≠ '|') (cell : Text) :
    escaped (c :: cell) = c :: escaped cell := by
  simp [escaped, h]

theorem head?_escaped (cell : Text) : (escaped cell).head? ≠ some '|' := by
  cases cell with
  | nil => simp
  | cons c cell =>
    by_cases pipe : c = '|'
    · subst pipe
      simp [escaped_pipe]
    · simp [escaped_cons pipe, pipe]

theorem getLast?_escaped (cell : Text) : (escaped cell).getLast? = cell.getLast? := by
  rcases List.eq_nil_or_concat' cell with rfl | ⟨front, c, rfl⟩
  · rfl
  · by_cases pipe : c = '|' <;> simp [escaped, pipe]

theorem joined_cons_cons (cell next : Text) (rest : List Text) :
    joined (cell :: next :: rest) = escaped cell ++ '|' :: joined (next :: rest) := by
  simp [joined, List.intercalate_cons_cons]

@[simp]
theorem joined_singleton (cell : Text) : joined [cell] = escaped cell := by
  simp [joined]

/-- A longer first cell is spelled longer. -/
theorem joined_modifyHead {cells : List Text} (nonempty : cells ≠ []) (front : Text) :
    joined (cells.modifyHead (front ++ ·)) = escaped front ++ joined cells := by
  obtain ⟨cell, rest, rfl⟩ := List.exists_cons_of_ne_nil nonempty
  cases rest with
  | nil => simp [escaped]
  | cons next rest => simp [joined_cons_cons, escaped]

/-- A row spells its last cell last. -/
theorem closed_joined (front : List Text) (last : Text) :
    Closed (joined (front ++ [last])) ↔ Closed last := by
  induction front with
  | nil => simp [Closed, getLast?_escaped]
  | cons cell front ih =>
    obtain ⟨next, rest, found⟩ := List.exists_cons_of_ne_nil (List.concat_ne_nil last front)
    rw [List.cons_append, found, joined_cons_cons, ← found, ← ih, Closed, Closed,
      List.getLast?_append, List.getLast?_cons]
    cases (joined (front ++ [last])).getLast? <;> simp

/-! ## Pieces -/

theorem pieces_pipe (t : Text) : pieces ('|' :: t) = [] :: pieces t := by simp [pieces]

theorem pieces_cons {c : Char} {t : Text} (escape : ∀ rest, c = '\\' → t = '|' :: rest → False)
    (other : c ≠ '|') : pieces (c :: t) = (pieces t).modifyHead (c :: ·) := by
  rw [pieces, if_neg other]
  exact escape

theorem pieces_ne_nil (t : Text) : pieces t ≠ [] := by
  induction t using pieces.induct with
  | case1 => exact List.cons_ne_nil _ _
  | case2 t ih => simpa [pieces] using ih
  | case3 t _ ih => simp [pieces_pipe]
  | case4 c t escape other ih => simpa [pieces_cons escape other] using ih

theorem joined_pieces (t : Text) : joined (pieces t) = t := by
  induction t using pieces.induct with
  | case1 => rfl
  | case2 t ih => exact (joined_modifyHead (pieces_ne_nil t) ['|']).trans (by simp [ih, escaped])
  | case3 t _ ih =>
    obtain ⟨first, rest, found⟩ := List.exists_cons_of_ne_nil (pieces_ne_nil t)
    rw [pieces_pipe, found, joined_cons_cons, ← found, ih]
    rfl
  | case4 c t escape other ih =>
    rw [pieces_cons escape other]
    exact (joined_modifyHead (pieces_ne_nil t) [c]).trans (by simp [ih, escaped, other])

/-- A backslash in front of a pipe takes it into the piece, so a piece that another one follows does
not end in a backslash. -/
theorem closed_pieces (t : Text) : ∀ cell ∈ (pieces t).dropLast, Closed cell := by
  have grown {c : Char} {t : Text} (apart : c = '\\' → t.head? ≠ some '|')
      (later : ∀ cell ∈ (pieces t).dropLast, Closed cell) :
      ∀ cell ∈ ((pieces t).modifyHead (c :: ·)).dropLast, Closed cell := by
    have whole := joined_pieces t
    cases found : pieces t with
    | nil => exact absurd found (pieces_ne_nil t)
    | cons first rest =>
      cases rest with
      | nil => simp
      | cons next rest =>
        rw [found, List.dropLast_cons_cons, List.forall_mem_cons] at later
        rw [found] at whole
        rw [List.modifyHead_cons, List.dropLast_cons_cons, List.forall_mem_cons]
        refine ⟨?_, later.2⟩
        cases first with
        | nil =>
          rintro same
          refine apart (by simpa using same) ?_
          rw [← whole, joined_cons_cons]
          rfl
        | cons d first => exact later.1
  induction t using pieces.induct with
  | case1 => simp [pieces]
  | case2 t ih =>
    rw [pieces]
    exact grown (fun escape => absurd escape (by decide)) ih
  | case3 t _ ih =>
    rw [pieces_pipe]
    cases found : pieces t with
    | nil => exact absurd found (pieces_ne_nil t)
    | cons first rest =>
      rw [found] at ih
      rw [List.dropLast_cons_cons, List.forall_mem_cons]
      exact ⟨by simp [Closed], ih⟩
  | case4 c t escape other ih =>
    rw [pieces_cons escape other]
    refine grown ?_ ih
    rintro rfl front
    obtain ⟨rest, rfl⟩ := List.head?_eq_some_iff.1 front
    exact escape rest rfl rfl

/-- A cell is read back unless it ends in a backslash that stands in front of a pipe. -/
theorem pieces_escaped (cell : Text) {t : Text} (apart : ¬Closed cell → t.head? ≠ some '|') :
    pieces (escaped cell ++ t) = (pieces t).modifyHead (cell ++ ·) := by
  induction cell with
  | nil =>
    obtain ⟨first, rest, found⟩ := List.exists_cons_of_ne_nil (pieces_ne_nil t)
    simp [found]
  | cons c cell ih =>
    have later : ¬Closed cell → t.head? ≠ some '|' := by
      intro opened
      refine apart fun closed => opened ?_
      cases cell with
      | nil => simp [Closed]
      | cons d cell => simpa [Closed] using closed
    by_cases pipe : c = '|'
    · subst pipe
      rw [escaped_pipe, List.cons_append, List.cons_append, pieces, ih later]
      simp [Function.comp_def]
    · have plain : ∀ rest, c = '\\' → escaped cell ++ t = '|' :: rest → False := by
        rintro rest rfl front
        cases cell with
        | nil => exact apart (by simp [Closed]) (by simpa using congrArg List.head? front)
        | cons d cell =>
          have first := head?_escaped (d :: cell)
          cases spelled : escaped (d :: cell) with
          | nil => by_cases h : d = '|' <;> simp [escaped, h] at spelled
          | cons e more => simp_all
      rw [escaped_cons pipe, List.cons_append, pieces_cons plain pipe, ih later]
      simp [Function.comp_def]

theorem pieces_joined {cells : List Text} (nonempty : cells ≠ [])
    (closed : ∀ cell ∈ cells.dropLast, Closed cell) : pieces (joined cells) = cells := by
  induction cells with
  | nil => exact absurd rfl nonempty
  | cons cell rest ih =>
    cases rest with
    | nil =>
      have read := pieces_escaped cell (t := []) (by simp)
      simpa [pieces] using read
    | cons next rest =>
      rw [List.dropLast_cons_cons, List.forall_mem_cons] at closed
      rw [joined_cons_cons, pieces_escaped cell (fun opened => absurd closed.1 opened), pieces_pipe,
        ih (List.cons_ne_nil _ _) closed.2]
      simp

/-! ## Rows -/

theorem dropLastPipe_joined (cells : List Text) : dropLastPipe (joined cells ++ ['|']) =
    if Closed (joined cells) then joined cells else joined cells ++ ['|'] := by
  have back : Text.dropSuffix? ['|'] (joined cells ++ ['|']) = some (joined cells) :=
    Text.dropSuffix?_eq_some.2 rfl
  rw [dropLastPipe, back]
  by_cases last : (joined cells).getLast? = some '\\' <;> simp [Closed, last]

section

variable {before after : Text} (front : ∀ c ∈ before, Text.isSpace c = true)
  (back : ∀ c ∈ after, Text.isSpace c = true)
include front back

theorem cells?_written (cells : List Text) : cells? (before ++ written cells ++ after) =
    some (pieces (dropLastPipe (joined cells ++ ['|']))) := by
  have tight : (written cells).Tight :=
    ⟨⟨'|', _, rfl, by decide⟩, '|' :: joined cells, '|', rfl, by decide⟩
  rw [cells?, Text.trim_between tight front back]
  simp [written]

/-- A row gives back the cells that it was written from if there are any and none ends in a
backslash, and in no other case. -/
theorem written_cells_read_back (cells : List Text) :
    cells? (before ++ written cells ++ after) = some cells ↔
      cells ≠ [] ∧ ∀ cell ∈ cells, cell.getLast? ≠ some '\\' := by
  rw [cells?_written front back, Option.some_inj, dropLastPipe_joined]
  constructor
  · intro read
    have nonempty : cells ≠ [] := read ▸ pieces_ne_nil _
    by_cases closed : Closed (joined cells)
    · rw [if_pos closed] at read
      have inner := closed_pieces (joined cells)
      rw [read] at inner
      obtain ⟨first, last, rfl⟩ := (List.eq_nil_or_concat' cells).resolve_left nonempty
      rw [List.dropLast_concat] at inner
      refine ⟨nonempty, List.forall_mem_append.2 ⟨inner, ?_⟩⟩
      simpa [Closed] using (closed_joined first last).1 closed
    · -- the pipe that ends the row has become part of a cell, and the row is too long for these
      rw [if_neg closed] at read
      have spelled := joined_pieces (joined cells ++ ['|'])
      simp [read] at spelled
  · rintro ⟨nonempty, closed⟩
    have whole : Closed (joined cells) := by
      obtain ⟨first, last, rfl⟩ := (List.eq_nil_or_concat' cells).resolve_left nonempty
      exact (closed_joined first last).2 (closed last (by simp))
    rw [if_pos whole]
    exact pieces_joined nonempty fun cell mem => closed cell (List.dropLast_subset _ mem)

end

/-- An empty cell, one with a pipe at either end, one that is not ASCII, and a blank one. -/
theorem awkward_cells_read_back :
    (∀ c ∈ [' ', '\t'], Text.isSpace c = true) ∧ (∀ c ∈ [' '], Text.isSpace c = true) ∧
      cells? " \t||\\|a\\\\||é| | ".toList =
        some [[], "|a\\|".toList, "é".toList, " ".toList] := by
  have front : ∀ c ∈ [' ', '\t'], Text.isSpace c = true := List.all_eq_true.1 rfl
  have back : ∀ c ∈ [' '], Text.isSpace c = true := List.all_eq_true.1 rfl
  exact ⟨front, back, (written_cells_read_back front back
    [[], "|a\\|".toList, "é".toList, " ".toList]).2 ⟨by decide, by decide⟩⟩

end TableLine

end DocComment
