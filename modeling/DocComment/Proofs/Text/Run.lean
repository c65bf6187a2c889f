import DocComment.Text.Basic
import Mathlib.Data.List.TakeWhile

/-!
# Runs of characters

A run is as many characters of one sort as stand at the front of a text. It ends where the next
character is of another sort, whatever follows.
-/

set_option autoImplicit false

namespace DocComment

namespace Text

/-! ## Sorts -/

theorem isAlpha_range {c : Char} (h : c.isAlpha) :
    65 ≤ c.toNat ∧ c.toNat ≤ 90 ∨ 97 ≤ c.toNat ∧ c.toNat ≤ 122 := by
  have letter : (decide (c.val ≥ 65 ∧ c.val ≤ 90) ||
      (decide (c.val ≥ 97) && decide (c.val ≤ 122))) = true := h
  simp only [Bool.or_eq_true, Bool.and_eq_true, decide_eq_true_eq, UInt32.le_iff_toNat_le,
    ge_iff_le] at letter
  exact letter

theorem isSpace_of_isAlpha {c : Char} (h : c.isAlpha) : isSpace c = false := by
  have := isAlpha_range h
  simp only [isSpace, Bool.or_eq_false_iff, Bool.and_eq_false_iff, decide_eq_false_iff_not,
    beq_eq_false_iff_ne]
  omega

theorem isAlphanum_of_isSpace {c : Char} (h : isSpace c = true) : c.isAlphanum = false := by
  simp only [isSpace, Bool.or_eq_true, Bool.and_eq_true, decide_eq_true_eq, beq_iff_eq] at h
  have letter : c.isAlpha = false := by
    rw [← Bool.not_eq_true]
    intro letter
    have := isAlpha_range letter
    omega
  have digit : c.isDigit = false := by
    rw [← Bool.not_eq_true]
    intro digit
    simp only [Char.isDigit, Bool.and_eq_true, decide_eq_true_eq, ge_iff_le,
      UInt32.le_iff_toNat_le] at digit
    have low : 48 ≤ c.toNat := digit.1
    have high : c.toNat ≤ 57 := digit.2
    omega
  rw [Char.isAlphanum, letter, digit]
  rfl

theorem ne_of_isAlpha {c d : Char} (h : c.isAlpha) (hd : d.isAlpha = false) : c ≠ d := by
  rintro rfl
  rw [h] at hd
  cases hd

/-! ## Runs -/

theorem exists_run (p : Char → Bool) (t : Text) : ∃ run rest, t = run ++ rest ∧
    (∀ c ∈ run, p c = true) ∧ ∀ c ∈ rest.head?, p c = false := by
  refine ⟨t.takeWhile p, t.dropWhile p, List.takeWhile_append_dropWhile.symm,
    fun c => List.mem_takeWhile_imp, ?_⟩
  intro c first
  have stops := List.head?_dropWhile_not p t
  rw [Option.mem_def.1 first] at stops
  exact stops

/-- A run that stops before the next character is taken whole. -/
theorem takeWhile_run {p : Char → Bool} {run rest : Text} (inside : ∀ c ∈ run, p c = true)
    (after : ∀ c ∈ rest.head?, p c = false) : (run ++ rest).takeWhile p = run := by
  rw [List.takeWhile_append_of_pos inside]
  cases rest with
  | nil => simp
  | cons c rest => simp [after c rfl]

theorem dropWhile_run {p : Char → Bool} {run rest : Text} (inside : ∀ c ∈ run, p c = true)
    (after : ∀ c ∈ rest.head?, p c = false) : (run ++ rest).dropWhile p = rest := by
  rw [List.dropWhile_append_of_pos inside]
  cases rest with
  | nil => rfl
  | cons c rest => simp [after c rfl]

/-- A run at the front of a text is within the longest one. -/
theorem length_le_takeWhile {p : Char → Bool} {run : Text} (inside : ∀ c ∈ run, p c = true)
    (rest : Text) : run.length ≤ ((run ++ rest).takeWhile p).length := by
  rw [List.takeWhile_append_of_pos inside]
  simp

/-- A run in the first of two texts does not reach into the second. -/
theorem takeWhile_append {p : Char → Bool} {rest : Text} (after : ∀ c ∈ rest.head?, p c = false)
    (t : Text) : (t ++ rest).takeWhile p = t.takeWhile p ∧
      (t ++ rest).dropWhile p = t.dropWhile p ++ rest := by
  induction t with
  | nil =>
    have none : ∀ c ∈ ([] : Text), p c = true := by simp
    exact ⟨takeWhile_run none after, dropWhile_run none after⟩
  | cons c t ih =>
    by_cases inside : p c = true
    · simp [inside, ih]
    · simp [inside]

theorem takeWhile_before {p : Char → Bool} {mark : Char} (h : p mark = false) (t rest : Text) :
    (t ++ mark :: rest).takeWhile p = t.takeWhile p :=
  (takeWhile_append (by simpa using h) t).1

theorem head?_front {p : Char → Prop} {front rest : Text} (h : ∀ c ∈ (front ++ rest).head?, p c) :
    ∀ c ∈ front.head?, p c := by
  cases front with
  | nil => simp
  | cons c front => simpa using h

end Text

end DocComment
