import DocComment.Text.Basic

/-!
# Table rows

A row starts with a pipe and holds at least one more. The cells keep the spaces around
them, so that an empty cell differs from a blank one. A pipe after a backslash belongs to
its cell. The separator under the header gives the alignment of each column.
-/

set_option autoImplicit false

namespace DocComment

inductive Alignment where
  | left
  | center
  | right
  deriving DecidableEq

namespace TableLine

/-- The pieces between the pipes, where a backslash and a pipe stand for a pipe. -/
def pieces : Text → List Text
  | [] => [[]]
  | '\\' :: '|' :: t => (pieces t).modifyHead ('|' :: ·)
  | c :: t => if c = '|' then [] :: pieces t else (pieces t).modifyHead (c :: ·)

/-- Removes the last pipe unless a backslash stands before it. -/
def dropLastPipe (t : Text) : Text :=
  match Text.dropSuffix? ['|'] t with
  | some body => if body.getLast? = some '\\' then t else body
  | none => t

/-- The cells of a row. -/
def cells? (line : Text) : Option (List Text) :=
  match Text.trim line with
  | '|' :: inner => if inner.contains '|' then some (pieces (dropLastPipe inner)) else none
  | _ => none

/-- The alignment that one piece of a separator gives: dashes between optional colons. -/
def alignment? (piece : Text) : Option Alignment :=
  let cell := Text.trim piece
  let dashes := Text.trimMatches ':' cell
  if dashes.isEmpty || dashes.any (· != '-') then none
  else if cell.getLast? = some ':' then
    if cell.head? = some ':' then some .center else some .right
  else some .left

/-- The alignments of a separator line. -/
def separator? (line : Text) : Option (List Alignment) :=
  let t := Text.trim line
  if t.contains '|' then
    let inner := (Text.dropPrefix? ['|'] t).getD t
    let inner := (Text.dropSuffix? ['|'] inner).getD inner
    (inner.splitOn '|').mapM alignment?
  else none

end TableLine

end DocComment
