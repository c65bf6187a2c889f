import DocComment.Text.Basic
import Mathlib

/-!
# Lines

A text is cut into lines where its line feeds are, and lines without line ends are put together
and cut again as they were. Lines that are not blank have an indent in common.
-/

set_option autoImplicit false

namespace DocComment.Text

/-! ## Cutting -/

theorem splitOn_cons (c : Char) (t : Text) : (c :: t).splitOn '\n' =
    if c = '\n' then [] :: t.splitOn '\n' else (t.splitOn '\n').modifyHead (c :: ·) := by
  rw [List.splitOn, List.splitOnP_cons_eq_if_modifyHead, ← List.splitOn]
  simp

/-- What a text is cut at is in none of the pieces. -/
theorem not_mem_of_mem_splitOn {t piece : Text} (h : piece ∈ t.splitOn '\n') : '\n' ∉ piece := by
  induction t generalizing piece with
  | nil =>
    obtain rfl : piece = [] := by simpa [List.splitOn] using h
    exact List.not_mem_nil
  | cons c t ih =>
    obtain ⟨first, others, pieces⟩ := List.exists_cons_of_ne_nil (List.splitOn_ne_nil '\n' t)
    rw [splitOn_cons, pieces] at h
    rw [pieces] at ih
    split_ifs at h with feed
    · rcases List.mem_cons.mp h with rfl | later
      · exact List.not_mem_nil
      · exact ih later
    · rcases List.mem_cons.mp h with rfl | later
      · exact List.not_mem_cons_of_ne_of_not_mem (Ne.symm feed) (ih List.mem_cons_self)
      · exact ih (List.mem_cons_of_mem _ later)

theorem dropReturn_prefix (t : Text) : dropReturn t <+: t := by
  unfold dropReturn
  split
  · exact List.dropLast_prefix t
  · exact List.prefix_rfl

theorem not_mem_of_mem_lines {t l : Text} (h : l ∈ lines t) : '\n' ∉ l := by
  have cut {pieces : List Text} (mem : l ∈ linesOf pieces) : ∃ piece ∈ pieces, l <+: piece := by
    fun_induction linesOf pieces with
    | case1 => cases mem
    | case2 last empty => cases mem
    | case3 last full => exact ⟨l, mem, List.prefix_rfl⟩
    | case4 line rest _ ih =>
      rcases List.mem_cons.mp mem with rfl | later
      · exact ⟨line, List.mem_cons_self, dropReturn_prefix line⟩
      · obtain ⟨piece, known, front⟩ := ih later
        exact ⟨piece, List.mem_cons_of_mem _ known, front⟩
  obtain ⟨piece, known, front⟩ := cut h
  exact fun feed => not_mem_of_mem_splitOn known (front.subset feed)

/-- Lines without line ends come back as they were, unless the last of them is empty. -/
theorem lines_unlines {ls : List Text} (bare : ∀ l ∈ ls, '\n' ∉ l ∧ '\r' ∉ l)
    (last : ls.getLast? ≠ some []) : lines (unlines ls) = ls := by
  have kept {ls : List Text} (bare : ∀ l ∈ ls, '\n' ∉ l ∧ '\r' ∉ l)
      (last : ls.getLast? ≠ some []) : linesOf ls = ls := by
    fun_induction linesOf ls with
    | case1 => rfl
    | case2 l empty => simp_all
    | case3 l full => rfl
    | case4 l rest more ih =>
      obtain ⟨here, later⟩ := List.forall_mem_cons.mp bare
      have whole : dropReturn l = l := by
        unfold dropReturn
        split
        next back => exact absurd (List.mem_of_getLast? back) here.2
        · rfl
      rw [whole, ih later]
      rwa [List.getLast?_cons_of_ne_nil (by simpa using more)] at last
  by_cases empty : ls = []
  · rw [empty]
    rfl
  · rw [lines, unlines, List.splitOn_intercalate '\n' (fun l mem => (bare l mem).1) empty]
    exact kept bare last

/-! ## Indents -/

/-- A text starts with as many spaces as its indent says. -/
theorem exists_spaces {n : Nat} {t : Text} (h : n ≤ indent t) :
    ∃ rest, t = List.replicate n ' ' ++ rest := by
  induction n generalizing t with
  | zero => exact ⟨t, rfl⟩
  | succ n ih =>
    cases t with
    | nil => simp [indent] at h
    | cons c t =>
      by_cases space : c = ' '
      · subst space
        obtain ⟨rest, rfl⟩ := ih (t := t) (by simpa [indent] using h)
        exact ⟨rest, rfl⟩
      · simp [indent, space] at h

/-- The least indent of the lines that are not blank, and zero if there are none. -/
def CommonIndent (lines : List Text) (n : Nat) : Prop :=
  (∀ t ∈ lines, isBlank t = true) ∧ n = 0 ∨
    IsLeast {k | ∃ t ∈ lines, isBlank t = false ∧ indent t = k} n

theorem commonIndent_spec (lines : List Text) : CommonIndent lines (commonIndent lines) := by
  unfold commonIndent
  cases least : ((lines.filter fun t => !isBlank t).map indent).min? with
  | none =>
    rw [List.min?_eq_none_iff, List.map_eq_nil_iff, List.filter_eq_nil_iff] at least
    exact .inl ⟨fun t mem => by simpa using least t mem, rfl⟩
  | some n =>
    obtain ⟨here, below⟩ := List.min?_eq_some_iff.1 least
    refine .inr ⟨?_, ?_⟩
    · simpa [and_assoc] using here
    · rintro k ⟨t, mem, text, rfl⟩
      exact below _ (List.mem_map_of_mem (List.mem_filter.2 ⟨mem, by simp [text]⟩))

theorem CommonIndent.le {lines : List Text} {n : Nat} (h : CommonIndent lines n) {t : Text}
    (mem : t ∈ lines) (text : isBlank t = false) : n ≤ indent t := by
  obtain ⟨blank, -⟩ | least := h
  · simp [blank t mem] at text
  · exact least.2 ⟨t, mem, text, rfl⟩

end DocComment.Text
