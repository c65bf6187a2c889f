import DocComment.Proofs.Text.Lines
import Mathlib

/-!
# Sizes of texts

The size of some lines is what their texts take together, without line feeds. No way to take a
text from a text adds to it, and joining lines or splitting them again costs nothing.
-/

set_option autoImplicit false

namespace DocComment.Text

@[simp]
theorem bytes_nil : bytes [] = 0 := rfl

@[simp]
theorem bytes_cons (c : Char) (t : Text) : bytes (c :: t) = c.utf8Size + bytes t := rfl

@[simp]
theorem bytes_append (a b : Text) : bytes (a ++ b) = bytes a + bytes b := by
  induction a with
  | nil => simp
  | cons c a ih => simp [ih, Nat.add_assoc]

theorem bytes_le_of_sublist {a b : Text} (h : a.Sublist b) : bytes a ≤ bytes b := by
  induction h with
  | slnil => exact Nat.le_refl _
  | cons c _ ih => exact ih.trans (Nat.le_add_left _ _)
  | cons_cons c _ ih => exact Nat.add_le_add_left ih _

theorem trimStart_sublist (t : Text) : (trimStart t).Sublist t := List.dropWhile_sublist _

theorem trimEnd_sublist (t : Text) : (trimEnd t).Sublist t := by
  simpa [trimEnd] using (List.dropWhile_sublist (l := t.reverse) isSpace).reverse

theorem trim_sublist (t : Text) : (trim t).Sublist t :=
  (trimEnd_sublist _).trans (trimStart_sublist _)

/-- The bytes that some lines take together. -/
def size (lines : List Text) : Nat := bytes lines.flatten

@[simp]
theorem size_nil : size [] = 0 := rfl

@[simp]
theorem size_cons (t : Text) (lines : List Text) : size (t :: lines) = bytes t + size lines := by
  simp [size]

@[simp]
theorem size_append (a b : List Text) : size (a ++ b) = size a + size b := by
  simp [size]

/-- The bytes of a text apart from its line feeds. -/
def weight (t : Text) : Nat := bytes (t.filter (· != '\n'))

theorem weight_le_bytes (t : Text) : weight t ≤ bytes t := bytes_le_of_sublist List.filter_sublist

theorem weight_append (a b : Text) : weight (a ++ b) = weight a + weight b := by
  simp [weight]

theorem weight_le_cons (c : Char) (t : Text) : weight t ≤ weight (c :: t) :=
  bytes_le_of_sublist ((List.sublist_cons_self c t).filter _)

theorem weight_lt_cons {c : Char} {t : Text} (h : c ≠ '\n') : weight t < weight (c :: t) := by
  simp [weight, h, Char.utf8Size_pos]

theorem weight_unlines (lines : List Text) : weight (unlines lines) ≤ size lines := by
  induction lines with
  | nil => simp [unlines, weight]
  | cons t rest ih =>
    cases rest with
    | nil => simpa [unlines] using weight_le_bytes t
    | cons u rest =>
      have feed : weight ['\n'] = 0 := rfl
      rw [unlines, List.intercalate_cons_cons, weight_append, weight_append, feed, size_cons]
      exact Nat.add_le_add (weight_le_bytes t) ih

theorem size_splitOn (t : Text) : size (t.splitOn '\n') = weight t := by
  induction t with
  | nil => rfl
  | cons c t ih =>
    rw [List.splitOn, List.splitOnP_cons_eq_if_modifyHead, ← List.splitOn]
    split
    · next feed => simp_all [weight]
    · next other =>
      have : c ≠ '\n' := by simpa using other
      cases h : t.splitOn '\n' with
      | nil => exact absurd h (List.splitOn_ne_nil _ _)
      | cons first rest =>
        simp_all [weight]
        omega

theorem dropReturn_sublist (t : Text) : (dropReturn t).Sublist t := by
  rw [dropReturn]
  split
  · exact List.dropLast_sublist t
  · exact List.Sublist.refl t

theorem size_linesOf (pieces : List Text) : size (linesOf pieces) ≤ size pieces := by
  fun_induction linesOf pieces with
  | case1 => exact Nat.le_refl _
  | case2 last empty => exact Nat.zero_le _
  | case3 last full => exact Nat.le_refl _
  | case4 line rest _ ih =>
    rw [size_cons, size_cons]
    exact Nat.add_le_add (bytes_le_of_sublist (dropReturn_sublist line)) ih

theorem size_lines (t : Text) : size (lines t) ≤ weight t :=
  (size_linesOf _).trans (size_splitOn t).le

theorem size_map_le {f : Text → Text} (h : ∀ t, bytes (f t) ≤ bytes t) (lines : List Text) :
    size (lines.map f) ≤ size lines := by
  induction lines with
  | nil => exact Nat.le_refl _
  | cons t rest ih =>
    rw [List.map_cons, size_cons, size_cons]
    exact Nat.add_le_add (h t) ih

end DocComment.Text
