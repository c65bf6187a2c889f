import DocComment.Comment
import DocComment.Proofs.Text.Lines
import DocComment.Proofs.Text.Position

/-!
# Comments in bytes

An opener is cut off by its length in bytes, and the indent that the lines of a comment have in
common is measured and taken away in bytes.
-/

set_option autoImplicit false

namespace DocComment

namespace Text

theorem dropPrefix?_eq (front t : Text) :
    dropPrefix? front t = if front.isPrefixOf t then some (t.drop front.length) else none := by
  split
  next starts =>
    obtain ⟨rest, rfl⟩ := List.isPrefixOf_iff_prefix.1 starts
    rw [List.drop_left]
    exact dropPrefix?_eq_some.2 rfl
  next other =>
    rw [← Option.not_isSome_iff_eq_none, Option.isSome_iff_exists]
    rintro ⟨rest, cut⟩
    exact other (List.isPrefixOf_iff_prefix.2 ⟨rest, (dropPrefix?_eq_some.1 cut).symm⟩)

/-- The indent of a line is what its length in bytes loses with its leading spaces. -/
theorem indent_eq (t : Text) : indent t = bytes t - bytes (t.dropWhile (· == ' ')) := by
  have spaces : t.takeWhile (· == ' ') = List.replicate (indent t) ' ' :=
    List.eq_replicate_iff.2 ⟨rfl, fun c mem => by simpa using List.mem_takeWhile_imp mem⟩
  have whole := congrArg bytes (List.takeWhile_append_dropWhile (p := (· == ' ')) (l := t))
  rw [bytes_append, spaces, bytes_spaces] at whole
  omega

end Text

namespace Bytewise

/-! ## Leaders -/

/-- The first of some openers that a text starts with, and what follows it. -/
def cutOpener? (openers : List Text) (t : Text) : Option (Option (Text × Text)) :=
  match openers.find? (·.isPrefixOf t) with
  | none => some none
  | some opener => (Text.dropBytes? (Text.bytes opener) t).map fun rest => some (opener, rest)

/-- Removes the star that decorates a line of a block comment. -/
def dropStar? (t : Text) : Option Text :=
  if ['*'].isPrefixOf t && !(['*', '/'].isPrefixOf t) then do
    let behind ← Text.dropBytes? 1 t
    some (if ['*'].isPrefixOf behind then t else behind)
  else some t

def trailingOpeners : List Text := Comment.trailingBlockOpeners ++ Comment.trailingLineOpeners

/-- Takes the opener or the decoration off a line without leading spaces. -/
def stripOpener? (leader : Comment.Leader) (t : Text) : Option (Comment.Leader × Text) := do
  match ← cutOpener? trailingOpeners t with
  | some (opener, rest) => some (⟨true, "/*".toList.isPrefixOf opener⟩, rest)
  | none =>
  match ← cutOpener? Comment.blockOpeners t with
  | some (_, rest) => some ({ leader with inBlock := true }, rest)
  | none =>
  match ← cutOpener? Comment.lineOpeners t with
  | some (_, rest) => some (leader, rest)
  | none =>
    if leader.inBlock then (dropStar? t).map (leader, ·) else some (leader, t)

def stripLines? : Comment.Leader → List Text → Option (Comment.Leader × List Text)
  | leader, [] => some (leader, [])
  | leader, line :: rest => do
    let opened ← stripOpener? leader (Text.trimStart line)
    let closed := Comment.stripCloser opened.1 opened.2
    let later ← stripLines? closed.1 rest
    some (later.1, Text.trimEnd closed.2 :: later.2)

/-- What a text is cut into by the first opener that it starts with. -/
theorem cutOpener?_eq (openers : List Text) (t : Text) : cutOpener? openers t =
    some ((openers.find? (·.isPrefixOf t)).map fun opener => (opener, t.drop opener.length)) := by
  unfold cutOpener?
  cases found : openers.find? (·.isPrefixOf t) with
  | none => rfl
  | some opener =>
    have starts := List.find?_some found
    obtain ⟨rest, rfl⟩ := List.isPrefixOf_iff_prefix.1 starts
    simp

theorem afterOpener?_eq (openers : List Text) (t : Text) : Comment.afterOpener? openers t =
    (openers.find? (·.isPrefixOf t)).map fun opener => t.drop opener.length := by
  unfold Comment.afterOpener?
  induction openers with
  | nil => rfl
  | cons opener openers ih =>
    rw [List.findSome?_cons, List.find?_cons, Text.dropPrefix?_eq, ih]
    cases opener.isPrefixOf t <;> rfl

theorem dropStar?_eq (t : Text) : dropStar? t = some (Comment.dropStar t) := by
  have behind (rest : Text) : Text.dropBytes? 1 ('*' :: rest) = some rest :=
    Text.dropBytes?_bytes ['*'] rest
  unfold Comment.dropStar
  split
  next rest => simp [dropStar?, behind, List.isPrefixOf_cons_cons]
  next rest => simp [dropStar?]
  next rest noStar noSlash =>
    cases rest with
    | nil => rfl
    | cons d rest =>
      have star : d ≠ '*' := fun same => noStar rest (by rw [same])
      have slash : d ≠ '/' := fun same => noSlash rest (by rw [same])
      simp [dropStar?, behind, List.isPrefixOf_cons_cons, Ne.symm star, Ne.symm slash]
  next noStar _ other =>
    cases t with
    | nil => rfl
    | cons c t =>
      have star : c ≠ '*' := fun same => other t (by rw [same])
      simp [dropStar?, List.isPrefixOf_cons_cons, Ne.symm star]

theorem stripOpener?_eq (leader : Comment.Leader) (t : Text) :
    stripOpener? leader t = some (Comment.stripOpener leader t) := by
  have trailing : trailingOpeners.find? (·.isPrefixOf t) =
      (Comment.trailingBlockOpeners.find? (·.isPrefixOf t)).or
        (Comment.trailingLineOpeners.find? (·.isPrefixOf t)) := List.find?_append
  have opensBlock : ∀ opener ∈ Comment.trailingBlockOpeners,
      "/*".toList.isPrefixOf opener = true := by
    simp [Comment.trailingBlockOpeners]
  have opensLine : ∀ opener ∈ Comment.trailingLineOpeners,
      "/*".toList.isPrefixOf opener = false := by
    simp [Comment.trailingLineOpeners, List.isPrefixOf_cons_cons]
  rw [stripOpener?, Comment.stripOpener]
  simp only [cutOpener?_eq, afterOpener?_eq, trailing, Option.bind_eq_bind, Option.bind_some]
  cases block : Comment.trailingBlockOpeners.find? (·.isPrefixOf t) with
  | some opener =>
    have known := opensBlock opener (List.mem_of_find?_eq_some block)
    simp only [Option.some_or, Option.map_some, known]
  | none =>
  cases line : Comment.trailingLineOpeners.find? (·.isPrefixOf t) with
  | some opener =>
    have known := opensLine opener (List.mem_of_find?_eq_some line)
    simp only [Option.none_or, Option.map_some, Option.map_none, known]
  | none =>
  cases Comment.blockOpeners.find? (·.isPrefixOf t) with
  | some opener => rfl
  | none =>
  cases Comment.lineOpeners.find? (·.isPrefixOf t) with
  | some opener => rfl
  | none =>
    simp only [Option.none_or, Option.map_none, dropStar?_eq, Option.map_some]
    split <;> rfl

theorem stripLines?_eq (leader : Comment.Leader) (lines : List Text) :
    stripLines? leader lines = some (Comment.stripLines leader lines) := by
  induction lines generalizing leader with
  | nil => rfl
  | cons line rest ih =>
    rw [stripLines?, stripOpener?_eq, Option.bind_eq_bind, Option.bind_some]
    dsimp only
    rw [ih]
    rfl

/-! ## Indents -/

/-- The least number of bytes that leading spaces take over the lines that are not blank. -/
def margin (lines : List Text) : Nat :=
  ((lines.filter fun t => !Text.isBlank t).map fun t =>
    Text.bytes t - Text.bytes (t.dropWhile (· == ' '))).min?.getD 0

/-- Takes as many bytes off every line that is not blank. -/
def dedent? (common : Nat) : List Text → Option (List Text)
  | [] => some []
  | t :: rest => do
    let here ← if Text.isBlank t then some [] else Text.dropBytes? common t
    let later ← dedent? common rest
    some (here :: later)

def comment? (tabWidth : Nat) (raw : Text) : Option Comment := do
  let stripped ← stripLines? .start (Text.lines raw)
  let expanded := stripped.2.map (Comment.detab tabWidth)
  let lines ← dedent? (margin expanded) expanded
  some ⟨Comment.dropEmptyEnds lines, stripped.1.trailing⟩

theorem margin_eq (lines : List Text) : margin lines = Text.commonIndent lines := by
  rw [margin, Text.commonIndent, funext Text.indent_eq]

theorem dedent?_eq {common : Nat} {lines : List Text}
    (h : ∀ t ∈ lines, Text.isBlank t = false → common ≤ Text.indent t) :
    dedent? common lines =
      some (lines.map fun t => if Text.isBlank t then [] else t.drop common) := by
  induction lines with
  | nil => rfl
  | cons t rest ih =>
    obtain ⟨here, later⟩ := List.forall_mem_cons.1 h
    rw [dedent?, ih later, List.map_cons]
    cases blank : Text.isBlank t with
    | true => rfl
    | false =>
      obtain ⟨body, rfl⟩ := Text.exists_spaces (here blank)
      have cut := Text.dropBytes?_bytes (List.replicate common ' ') body
      rw [Text.bytes_spaces] at cut
      simp [cut]

theorem comment?_eq (tabWidth : Nat) (raw : Text) :
    comment? tabWidth raw = some (Comment.ofRaw tabWidth raw) := by
  rw [comment?, stripLines?_eq, Option.bind_eq_bind, Option.bind_some]
  dsimp only
  rw [margin_eq, dedent?_eq fun t mem text => (Text.commonIndent_spec _).le mem text]
  rfl

end Bytewise

end DocComment
