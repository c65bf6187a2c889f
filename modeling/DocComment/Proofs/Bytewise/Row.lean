import DocComment.Line.TableRow
import DocComment.Proofs.Text.Position

/-!
# Table rows in bytes

The cells of a row are read by a cursor that looks at one byte to find a pipe, at two to find one
behind a backslash, and otherwise goes on by a whole character.
-/

set_option autoImplicit false

namespace DocComment.Bytewise

/-- The cells from a cursor on, of the first of which `cell` has been read. -/
def cellsFrom? (cell : Text) (cursor : Text.Cursor) : Option (List Text) :=
  match _ : cursor.peek with
  | none => some [cell]
  | some byte =>
    if Text.onByte (· == '\\') byte && cursor.startsWith ['\\', '|'] then
      cellsFrom? (cell ++ ['|']) (cursor.advance 2)
    else if Text.onByte (· == '|') byte then
      (cellsFrom? [] (cursor.advance 1)).map (cell :: ·)
    else do
      let rest ← cursor.rest?
      let c := rest.head?.getD ' '
      cellsFrom? (cell ++ [c]) (cursor.advance c.utf8Size)
termination_by cursor.left
decreasing_by
  all_goals refine Text.Cursor.left_advance (Text.Cursor.lt_of_peek ‹_›) ?_
  · exact Nat.two_pos
  · exact Nat.one_pos
  · exact Char.utf8Size_pos _

/-- The cells of a row. -/
def cells? (line : Text) : Option (Option (List Text)) :=
  let t := Text.trim line
  match Text.dropPrefix? ['|'] t with
  | none => some none
  | some inner => do
    let behind ← Text.dropBytes? 1 t
    if behind.contains '|' then
      (cellsFrom? [] (.start (TableLine.dropLastPipe inner))).map some
    else some none

/-- One step of the cursor, by the characters behind it. -/
theorem cellsFrom?_cons (cell before : Text) (c : Char) (t : Text) :
    cellsFrom? cell (.between before (c :: t)) =
      if ['\\', '|'].isPrefixOf (c :: t) then
        cellsFrom? (cell ++ ['|']) (.between (before ++ ['\\', '|']) t.tail)
      else if c = '|' then (cellsFrom? [] (.between (before ++ [c]) t)).map (cell :: ·)
      else cellsFrom? (cell ++ [c]) (.between (before ++ [c]) t) := by
  obtain ⟨byte, peek, answers⟩ := Text.Cursor.peek_cons before c t
  have backslash := answers (· == '\\') (Text.ascii_eq (by decide))
  have pipe := answers (· == '|') (Text.ascii_eq (by decide))
  have starts : (Text.Cursor.between before (c :: t)).startsWith ['\\', '|'] =
      ['\\', '|'].isPrefixOf (c :: t) := Text.Cursor.startsWith_between (by simp) before (c :: t)
  have behind := Text.Cursor.advance_between before [c] t
  rw [cellsFrom?]
  split
  next stop => simp [peek] at stop
  next other read =>
    obtain rfl : byte = other := by simpa [peek] using read
    rw [backslash, pipe, starts]
    by_cases escaped : ['\\', '|'].isPrefixOf (c :: t) = true
    · obtain ⟨more, same⟩ := List.isPrefixOf_iff_prefix.1 escaped
      cases same
      have behind := Text.Cursor.advance_between before ['\\', '|'] more
      rw [if_pos escaped, if_pos (by simp)]
      exact congrArg _ behind
    rw [if_neg escaped, if_neg (by simp [escaped]), ← behind]
    by_cases isPipe : c = '|'
    · subst isPipe
      rfl
    · simp [isPipe]

theorem modifyHead_nil_append (cells : List Text) : cells.modifyHead ([] ++ ·) = cells := by
  cases cells <;> rfl

theorem cellsFrom?_eq (cell before rest : Text) :
    cellsFrom? cell (.between before rest) =
      some ((TableLine.pieces rest).modifyHead (cell ++ ·)) := by
  fun_induction TableLine.pieces rest generalizing cell before with
  | case1 =>
    have peek := Text.Cursor.peek_between before []
    rw [cellsFrom?]
    split
    next => simp
    next read => simp [peek] at read
  | case2 t ih =>
    rw [cellsFrom?_cons, if_pos (by simp)]
    exact (ih _ _).trans (by simp [Function.comp_def])
  | case3 t _ ih =>
    rw [cellsFrom?_cons, if_neg (by simp [List.isPrefixOf_cons_cons]), if_pos rfl, ih,
      modifyHead_nil_append]
    simp
  | case4 c t escaped other ih =>
    have plain : ¬['\\', '|'].isPrefixOf (c :: t) = true := by
      intro front
      obtain ⟨more, same⟩ := List.isPrefixOf_iff_prefix.1 front
      cases same
      exact escaped _ rfl rfl
    rw [cellsFrom?_cons, if_neg plain, if_neg other, ih]
    simp [Function.comp_def]

theorem cells?_eq (line : Text) : cells? line = some (TableLine.cells? line) := by
  unfold cells? TableLine.cells?
  dsimp only
  cases trimmed : Text.trim line with
  | nil => rfl
  | cons c inner =>
    by_cases pipe : c = '|'
    · subst pipe
      have behind : Text.dropBytes? 1 ('|' :: inner) = some inner :=
        Text.dropBytes?_bytes ['|'] inner
      have cells := cellsFrom?_eq [] [] (TableLine.dropLastPipe inner)
      rw [modifyHead_nil_append, ← Text.Cursor.start_eq] at cells
      simp only [Text.dropPrefix?, if_true, behind, cells, Option.bind_eq_bind, Option.bind_some,
        Option.map_some]
      split <;> rfl
    · rw [Text.dropPrefix?, if_neg (Ne.symm pipe)]
      dsimp only
      split
      next _ same => exact absurd (List.cons.inj same).1 pipe
      next => rfl

end DocComment.Bytewise
