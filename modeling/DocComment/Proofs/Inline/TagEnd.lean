import DocComment.Inline.Token
import DocComment.Proofs.Text.Run

/-!
# Where a tag ends

Behind its name a tag may have attributes, which stand apart from it, and a slash; then it ends.
So the reader of tags takes the name, and what follows is read without it.
-/

set_option autoImplicit false

namespace DocComment.InlineToken

open Text (isSpace)

/-- What may stand behind the name of a tag: attributes apart from it, and its end. -/
inductive Closes : Text → Prop where
  | mk (attributes slash : Text) (apart : ∀ d ∈ attributes.head?, isSpace d = true)
    (angles : ∀ d ∈ attributes, d ≠ '<' ∧ d ≠ '>') (closing : slash = [] ∨ slash = ['/']) :
    Closes (attributes ++ (slash ++ ['>']))

/-- What follows the name of a tag, up to its end or to where it goes wrong. -/
def tagEnd : Text → Kind × Nat
  | '>' :: _ => (.tag, 1)
  | '/' :: '>' :: _ => (.tag, 2)
  | c :: rest =>
    if isSpace c then
      let inner := ((c :: rest).takeWhile fun d => d != '<' && d != '>').length
      if ((c :: rest).drop inner).head? = some '>' then (.tag, inner + 1) else (.text, inner)
    else (.text, 0)
  | [] => (.text, 0)

theorem afterTagStart_run {name rest : Text} (word : ∀ c ∈ name, c.isAlphanum = true)
    (after : ∀ c ∈ rest.head?, c.isAlphanum = false) :
    afterTagStart (name ++ rest) = ((tagEnd rest).1, name.length + (tagEnd rest).2) := by
  rw [afterTagStart, Text.takeWhile_run word after]
  dsimp only
  rw [List.drop_left]
  split
  · rfl
  · rfl
  · next notEnd notSlash =>
    rw [tagEnd]
    · dsimp only
      split_ifs <;> rfl
    · exact notEnd
    · exact notSlash
  · rfl

/-- Attributes, as far as they go, and whether the tag ends there. -/
theorem tagEnd_run {run : Text} {c : Char} (space : isSpace c = true)
    (angles : ∀ d ∈ c :: run, d ≠ '<' ∧ d ≠ '>') (rest : Text)
    (stop : ∀ d ∈ rest.head?, d = '<' ∨ d = '>') : tagEnd (c :: run ++ rest) =
      if rest.head? = some '>' then (.tag, (c :: run).length + 1)
      else (.text, (c :: run).length) := by
  have inner : (c :: run ++ rest).takeWhile (fun d => d != '<' && d != '>') = c :: run := by
    apply Text.takeWhile_run
    · intro d mem
      simp [angles d mem]
    · intro d mem
      rcases stop d mem with rfl | rfl <;> rfl
  rw [List.cons_append] at inner ⊢
  have left : (c :: (run ++ rest)).drop (c :: run).length = rest := by simp
  rw [tagEnd]
  · simp only [inner, left, if_pos space]
  · rintro rfl
    cases space
  · rintro _ rfl
    cases space

theorem Closes.head {front : Text} (h : Closes front) (rest : Text) :
    ∀ c ∈ (front ++ rest).head?, c.isAlphanum = false := by
  obtain ⟨attributes, slash, apart, angles, closing⟩ := h
  cases attributes with
  | nil => rcases closing with rfl | rfl <;> simp
  | cons c attributes =>
    intro d first
    obtain rfl : c = d := by simpa using first
    exact Text.isAlphanum_of_isSpace (apart c rfl)

theorem tagEnd_closes {front : Text} (h : Closes front) (rest : Text) :
    tagEnd (front ++ rest) = (.tag, front.length) := by
  obtain ⟨attributes, slash, apart, angles, closing⟩ := h
  cases attributes with
  | nil => rcases closing with rfl | rfl <;> rfl
  | cons c attributes =>
    have space := apart c rfl
    have inside : ∀ d ∈ c :: (attributes ++ slash), d ≠ '<' ∧ d ≠ '>' := by
      intro d mem
      rw [← List.cons_append, List.mem_append] at mem
      rcases mem with mem | mem
      · exact angles d mem
      · rcases closing with rfl | rfl
        · cases mem
        · rw [List.mem_singleton.1 mem]
          decide
    have read := tagEnd_run space inside ('>' :: rest) (by simp)
    simpa [Nat.add_assoc] using read

theorem afterAngle_slash {slash : Text} (opening : slash = [] ∨ slash = ['/']) {c : Char}
    (letter : c.isAlpha = true) (t : Text) : afterAngle (slash ++ c :: t) =
      ((afterTagStart (c :: t)).1, slash.length + (afterTagStart (c :: t)).2) := by
  rcases opening with rfl | rfl
  · have solid : c ≠ '/' := Text.ne_of_isAlpha letter rfl
    simp [afterAngle, letter, solid]
  · simp [afterAngle, letter]

end DocComment.InlineToken
