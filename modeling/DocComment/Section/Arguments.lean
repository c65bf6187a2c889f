import DocComment.Markup.Doc

/-!
# Arguments of section commands

A command takes its arguments from the front of the text after it: a word, a direction in
brackets, or several names with commas between them.
-/

set_option autoImplicit false

namespace DocComment.Section

/-- The first word of a text, and the text after it without its leading spaces. -/
def takeWord (t : Text) : Text × Text :=
  let t := Text.trimStart t
  match Text.splitFirst? Text.isSpace t with
  | some (word, rest) => (word, Text.trimStart rest)
  | none => (t, [])

theorem takeWord_length (t : Text) (h : (takeWord t).2 ≠ []) :
    (takeWord t).2.length < t.length := by
  have trimmed := Text.trimStart_length t
  unfold takeWord at h ⊢
  dsimp only at h ⊢
  split at h
  · next word rest hs =>
    have := Text.splitFirst?_length hs
    have := Text.trimStart_length rest
    simp only
    omega
  · exact absurd rfl h

/-- A direction in brackets, and the text after it. -/
def takeDirection (args : Text) : ParamDirection × Text :=
  match args with
  | '[' :: inner =>
    match Text.splitFirst? (· == ']') inner with
    | some (spec, rest) => (.ofSpec spec, Text.trimStart rest)
    | none => (.unspecified, args)
  | _ => (.unspecified, args)

/-- The names in front, and the text after them. A word that ends with a comma is followed by
more names. -/
def parameterNames (args : Text) : List Text × Text :=
  let names := ((takeWord args).1.splitOn ',').filter fun name => !name.isEmpty
  if _ : (takeWord args).1.getLast? = some ',' ∧ (takeWord args).2 ≠ [] then
    let later := parameterNames (takeWord args).2
    (names ++ later.1, later.2)
  else (names, (takeWord args).2)
termination_by args.length
decreasing_by
  next h => exact takeWord_length args h.2

end DocComment.Section
