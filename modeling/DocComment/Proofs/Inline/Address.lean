import DocComment.Inline.Nodes
import Mathlib.Tactic.SplitIfs

/-!
# Addresses are cut out of running text

Running text is cut into addresses and what stands between them, and each address into a link and
the punctuation after it. No character is lost where it is cut, and text without a colon is not cut
at all.
-/

set_option autoImplicit false

namespace DocComment

/-! ## Nothing is lost -/

namespace Url

/-- The text that was cut. -/
def Matches.text (urls : Matches) : Text :=
  urls.found.flatMap (fun found => found.before ++ found.url) ++ urls.rest

theorem text_consChar (c : Char) (urls : Matches) : (urls.consChar c).text = c :: urls.text := by
  obtain ⟨found, rest⟩ := urls
  cases found with
  | nil => rfl
  | cons first more => simp [Matches.consChar, Matches.text]

theorem scheme?_pos {t : Text} {n : Nat} (h : scheme? t = some n) : 0 < n := by
  unfold scheme? at h
  extract_lets authority at h
  have pos {start : Text} (cut : authority start = some n) : 0 < n := by
    obtain ⟨rest, -, found⟩ := Option.bind_eq_some_iff.1 cut
    dsimp only at found
    split_ifs at found
    cases found
    omega
  rcases Option.or_eq_some_iff.1 h with first | ⟨-, second⟩
  · exact pos first
  · exact pos second

theorem text_matchesFrom (skip : Nat) (t : Text) : (matchesFrom skip t).text = t.drop skip := by
  fun_induction matchesFrom skip t with
  | case1 => simp [Matches.text]
  | case2 skip c t ih => simpa using ih
  | case3 c t n found later ih =>
    have pos := scheme?_pos found
    have cut : (c :: t).drop n = t.drop (n - 1) := by
      cases n with
      | zero => cases pos
      | succ k => rfl
    simp only [Matches.text, List.flatMap_cons, List.nil_append, List.append_assoc] at ih ⊢
    rw [ih, ← cut, List.take_append_drop, List.drop_zero]
  | case4 c t none ih => rw [text_consChar, ih, List.drop_zero, List.drop_zero]

theorem text_matchesIn (t : Text) : (matchesIn t).text = t := text_matchesFrom 0 t

theorem splitPunctuationRev_append (word : Text) :
    (splitPunctuationRev word).1 ++ (splitPunctuationRev word).2 = word := by
  fun_induction splitPunctuationRev word with
  | case1 => rfl
  | case2 => rfl
  | case3 c rest _ trailing split ih => exact congrArg (c :: ·) ih
  | case4 => rfl

theorem splitPunctuation_append (word : Text) :
    (splitPunctuation word).1 ++ (splitPunctuation word).2 = word := by
  rw [splitPunctuation, ← List.reverse_append, splitPunctuationRev_append, List.reverse_reverse]

end Url

/-! ## Text without marks -/

namespace Inline

theorem scheme?_of_not_mem {t : Text} (h : ':' ∉ t) : Url.scheme? t = none := by
  have missing (front : Text) (colon : ':' ∈ front) : Text.dropPrefix? front t = none := by
    cases cut : Text.dropPrefix? front t with
    | none => rfl
    | some rest =>
      rw [Text.dropPrefix?_eq_some.1 cut] at h
      exact absurd (List.mem_append_left rest colon) h
  unfold Url.scheme?
  extract_lets authority
  have none (start : Text) (colon : ':' ∈ start) : authority start = none := by
    dsimp only [authority]
    rw [missing start colon, Option.bind_none]
  rw [none _ (by decide), none _ (by decide), Option.or_none]

theorem matchesFrom_of_not_mem {t : Text} (h : ':' ∉ t) : Url.matchesFrom 0 t = ⟨[], t⟩ := by
  induction t with
  | nil => rfl
  | cons c t ih =>
    rw [Url.matchesFrom, scheme?_of_not_mem h]
    dsimp only
    rw [ih (List.not_mem_of_not_mem_cons h)]
    rfl

theorem decodeFrom_of_not_mem {t : Text} (h : '&' ∉ t) : Text.decodeFrom 0 t = t := by
  induction t with
  | nil => rfl
  | cons c t ih =>
    have mark : c ≠ '&' := (List.ne_of_not_mem_cons h).symm
    rw [Text.decodeFrom, if_neg mark]
    dsimp only
    rw [ih (List.not_mem_of_not_mem_cons h)]

/-- Text that holds no address and no character reference is written as it is. -/
theorem addText_plain (out : Output) {t : Text} (colon : ':' ∉ t) (ampersand : '&' ∉ t) :
    addText out t = out.write t := by
  have urls : Url.matchesIn t = ⟨[], t⟩ := matchesFrom_of_not_mem colon
  have decoded : Text.decodeReferences t = t := decodeFrom_of_not_mem ampersand
  simp [addText, urls, decoded]

/-! ## Address by address -/

/-- What an address adds: the text before it and the link; the punctuation behind it is kept for
what comes next. -/
def writeMatch (state : Output × Text) (found : Url.Match) : Output × Text :=
  let (url, trailing) := Url.splitPunctuation found.url
  ((state.1.write (Text.decodeReferences (state.2 ++ found.before))).addNode
    (.link url [.text url]), trailing)

theorem addText_eq (out : Output) (t : Text) :
    addText out t =
      ((Url.matchesIn t).found.foldl writeMatch (out, [])).1.write
        (Text.decodeReferences (((Url.matchesIn t).found.foldl writeMatch (out, [])).2 ++
          (Url.matchesIn t).rest)) :=
  rfl

end Inline

end DocComment
