import DocComment.Section.Brief
import Mathlib.Data.List.Infix

/-!
# The end of the first sentence

A sentence ends with the first full stop that a space follows. The cut behind it leaves the full
stop to the sentence and takes the spaces away; nodes other than text are never cut, and the two
parts hold every other node as it was.
-/

set_option autoImplicit false

namespace DocComment.Section

/-- What ends a sentence. The space belongs to the text behind it. -/
def sentenceEnd : Text := ['.', ' ']

theorem sentence?_eq_none_iff {t : Text} : sentence? t = none ↔ ¬sentenceEnd <:+: t := by
  fun_induction sentence? t with
  | case1 rest => simp [sentenceEnd, List.infix_cons_iff]
  | case2 => simp [sentenceEnd]
  | case3 c rest other ih =>
    have front : ¬sentenceEnd <+: c :: rest := by
      rintro ⟨after, same⟩
      obtain ⟨rfl, rfl⟩ := List.cons.inj same
      exact other after rfl rfl
    rw [Option.map_eq_none_iff, ih, List.infix_cons_iff, or_iff_right front]

theorem sentence?_eq_some {t head tail : Text} (found : sentence? t = some (head, tail)) :
    ∃ front after, head = front ++ ['.'] ∧ tail = ' ' :: after ∧
      t = front ++ sentenceEnd ++ after ∧ ¬sentenceEnd <:+: head := by
  fun_induction sentence? t generalizing head with
  | case1 rest =>
    cases found
    exact ⟨[], rest, rfl, rfl, rfl, by decide⟩
  | case2 => cases found
  | case3 c rest other ih =>
    obtain ⟨⟨later, tail⟩, sooner, same⟩ := Option.map_eq_some_iff.mp found
    cases same
    obtain ⟨front, after, rfl, rfl, rfl, first⟩ := ih sooner
    refine ⟨c :: front, after, rfl, rfl, rfl, ?_⟩
    rw [List.infix_cons_iff, not_or]
    refine ⟨?_, first⟩
    rintro ⟨more, same⟩
    obtain ⟨rfl, behind⟩ := List.cons.inj same
    cases front with
    | nil => cases behind
    | cons d front =>
      obtain ⟨rfl, -⟩ := List.cons.inj behind
      exact other _ rfl rfl

/-- Whether no sentence ends in the texts among some nodes. -/
def Unended (body : List Node) : Prop := ∀ t, .text t ∈ body → ¬sentenceEnd <:+: t

theorem Unended.cons {body : List Node} (h : Unended body) {node : Node}
    (quiet : ∀ t, node = .text t → ¬sentenceEnd <:+: t) : Unended (node :: body) := by
  intro t mem
  rcases List.mem_cons.mp mem with here | later
  · exact quiet t here.symm
  · exact h t later

/-- `SentenceCut body first later`: of the texts among `body` the first that a sentence ends in is
cut behind the full stop. The spaces at the cut are left out, and so is an empty text. -/
inductive SentenceCut : List Node → List Node → List Node → Prop
  | mk {before : List Node} {front after : Text} (rest : List Node) (earlier : Unended before)
    (first : ¬sentenceEnd <:+: front ++ ['.']) :
    SentenceCut (before ++ .text (front ++ sentenceEnd ++ after) :: rest)
      (before ++ [.text (front ++ ['.'])])
      ((if (Text.trimStart after).isEmpty then [] else [.text (Text.trimStart after)]) ++ rest)

theorem SentenceCut.cons {body first later : List Node} (h : SentenceCut body first later)
    {node : Node} (quiet : ∀ t, node = .text t → ¬sentenceEnd <:+: t) :
    SentenceCut (node :: body) (node :: first) later := by
  obtain ⟨rest, earlier, first⟩ := h
  exact .mk rest (earlier.cons quiet) first

theorem cutSentence_cons {node : Node} (quiet : ∀ t, node = .text t → sentence? t = none)
    (rest : List Node) :
    cutSentence (node :: rest) = (node :: (cutSentence rest).1, (cutSentence rest).2) := by
  cases node with
  | text t => simp only [cutSentence, quiet t rfl]
  | _ => rfl

theorem cutSentence_spec (body : List Node) :
    SentenceCut body (cutSentence body).1 (cutSentence body).2 ∨
      Unended body ∧ cutSentence body = (body, []) := by
  induction body with
  | nil => exact .inr ⟨nofun, rfl⟩
  | cons node rest ih =>
    by_cases quiet : ∀ t, node = .text t → sentence? t = none
    · have unended : ∀ t, node = .text t → ¬sentenceEnd <:+: t := fun t same =>
        sentence?_eq_none_iff.mp (quiet t same)
      rw [cutSentence_cons quiet]
      rcases ih with cut | ⟨later, whole⟩
      · exact .inl (cut.cons unended)
      · exact .inr ⟨later.cons unended, by rw [whole]⟩
    · push Not at quiet
      obtain ⟨t, rfl, found⟩ := quiet
      obtain ⟨⟨head, tail⟩, found⟩ := Option.ne_none_iff_exists'.mp found
      obtain ⟨front, after, rfl, rfl, rfl, first⟩ := sentence?_eq_some found
      have cut := @SentenceCut.mk [] front after rest nofun first
      have spaces : Text.trimStart (' ' :: after) = Text.trimStart after := rfl
      refine .inl ?_
      simp only [cutSentence, found, spaces]
      exact cut

/-- Both rules take a brief description from the same blocks. They differ where a sentence ends
inside the first paragraph. -/
theorem takeBrief_rules (blocks : List Node) :
    (∃ body first later rest, SentenceCut body first later ∧
      takeBrief .firstParagraph blocks = (some (.paragraph body), rest) ∧
      takeBrief .firstSentence blocks =
        (some (.paragraph first), (if later.isEmpty then [] else [.paragraph later]) ++ rest)) ∨
      takeBrief .firstSentence blocks = takeBrief .firstParagraph blocks ∧
        ∀ body, (takeBrief .firstParagraph blocks).1 = some (.paragraph body) → Unended body := by
  have nothing (h : ∀ body rest, blocks ≠ .paragraph body :: rest) (rule : BriefRule) :
      takeBrief rule blocks = (none, blocks) := by
    unfold takeBrief
    split
    next body rest => exact absurd rfl (h body rest)
    · rfl
  by_cases paragraph : ∃ body rest, blocks = .paragraph body :: rest
  · obtain ⟨body, rest, rfl⟩ := paragraph
    rcases cutSentence_spec body with cut | ⟨unended, whole⟩
    · exact .inl ⟨body, _, _, rest, cut, rfl, rfl⟩
    · refine .inr ⟨?_, fun other same => ?_⟩
      · simp [takeBrief, whole]
      · cases same
        exact unended
  · push Not at paragraph
    refine .inr ⟨by rw [nothing paragraph, nothing paragraph], fun body same => ?_⟩
    rw [nothing paragraph] at same
    cases same

end DocComment.Section
