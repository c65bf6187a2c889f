import DocComment.Text.Basic
import Mathlib.Data.List.Basic
import Mathlib.Data.List.DropRight
import Mathlib.Data.List.TakeWhile

/-!
# White space

Trimming leaves a text as it is where no white space ends it. Squeezing puts one space in place of
each run of white space; what a text is squeezed to does not depend on which of its parts have been
squeezed before.
-/

set_option autoImplicit false

namespace DocComment.Text

/-! ## Ends -/

theorem trimStart_eq_self {t : Text} (h : ∀ c ∈ t.head?, isSpace c = false) : trimStart t = t := by
  cases t with
  | nil => rfl
  | cons c t => simp [trimStart, h c rfl]

theorem trimEnd_eq_self {t : Text} (h : ∀ c ∈ t.getLast?, isSpace c = false) : trimEnd t = t := by
  have reversed : trimStart t.reverse = t.reverse := by
    apply trimStart_eq_self
    rwa [List.head?_reverse]
  rw [trimEnd, ← trimStart, reversed, List.reverse_reverse]

theorem trimEnd_prefix (t : Text) : trimEnd t <+: t := by
  have back := List.dropWhile_suffix (l := t.reverse) isSpace
  simpa [trimEnd] using List.reverse_prefix.mpr back

theorem head?_trimStart (t : Text) : ∀ c ∈ (trimStart t).head?, isSpace c = false := by
  intro c mem
  have stops := List.head?_dropWhile_not isSpace t
  rwa [← trimStart, mem] at stops

theorem getLast?_trimEnd (t : Text) : ∀ c ∈ (trimEnd t).getLast?, isSpace c = false := by
  rw [trimEnd, List.getLast?_reverse]
  exact head?_trimStart t.reverse

/-- What is trimmed at its end starts as it did. -/
theorem head?_trimEnd {t : Text} (h : ∀ c ∈ t.head?, isSpace c = false) :
    ∀ c ∈ (trimEnd t).head?, isSpace c = false := by
  obtain ⟨cut, whole⟩ := trimEnd_prefix t
  intro c mem
  apply h c
  rw [← whole, List.head?_append, mem]
  rfl

theorem isSpace_of_trimEnd {t : Text} (h : trimEnd t = []) : ∀ c ∈ t, isSpace c = true := by
  rw [trimEnd, List.reverse_eq_nil_iff, List.dropWhile_eq_nil_iff] at h
  intro c mem
  exact h c (List.mem_reverse.2 mem)

theorem trimEnd_blank {t : Text} (h : ∀ c ∈ t, isSpace c = true) : trimEnd t = [] := by
  rw [trimEnd, List.reverse_eq_nil_iff, List.dropWhile_eq_nil_iff]
  intro c mem
  exact h c (List.mem_reverse.1 mem)

theorem trimEnd_trimEnd (t : Text) : trimEnd (trimEnd t) = trimEnd t := by
  rw [trimEnd, trimEnd, List.reverse_reverse, List.dropWhile_idempotent]

/-- Trimming takes from the second of two texts alone, unless nothing is left of it. -/
theorem trimEnd_append {a b : Text} (h : trimEnd b = [] → ∀ c ∈ a.getLast?, isSpace c = false) :
    trimEnd (a ++ b) = a ++ trimEnd b := by
  rw [trimEnd, List.reverse_append, List.dropWhile_append]
  by_cases blank : (b.reverse.dropWhile isSpace).isEmpty
  · have empty : trimEnd b = [] := by simpa [trimEnd] using blank
    rw [if_pos blank, empty, List.append_nil, ← trimEnd, trimEnd_eq_self (h empty)]
  · rw [if_neg blank, List.reverse_append, List.reverse_reverse, trimEnd]

theorem trimStart_append {space : Text} (h : ∀ c ∈ space, isSpace c = true) {t : Text} {c : Char}
    (front : isSpace c = false) : trimStart (space ++ c :: t) = c :: t := by
  rw [trimStart, List.dropWhile_append_of_pos h, List.dropWhile_cons_of_neg (by simp [front])]

theorem mem_dropWhile_of_not {α : Type} {p : α → Bool} {l : List α} {a : α} (mem : a ∈ l)
    (h : p a = false) : a ∈ l.dropWhile p := by
  rw [← l.takeWhile_append_dropWhile (p := p)] at mem
  refine (List.mem_append.mp mem).resolve_left fun taken => ?_
  simp [List.mem_takeWhile_imp taken] at h

theorem mem_trim {t : Text} {c : Char} (mem : c ∈ t) (h : isSpace c = false) :
    c ∈ trim t := by
  have start : c ∈ trimStart t := mem_dropWhile_of_not mem h
  have back := mem_dropWhile_of_not (List.mem_reverse.mpr start) h
  exact List.mem_reverse.mpr back

theorem trim_eq_nil_iff {t : Text} : trim t = [] ↔ isBlank t = true := by
  constructor
  · intro nothing
    refine List.all_eq_true.mpr fun c mem => ?_
    by_contra solid
    have kept := mem_trim mem (by simpa using solid)
    simp [nothing] at kept
  · intro blank
    have start : trimStart t = [] := List.dropWhile_eq_nil_iff.mpr (List.all_eq_true.mp blank)
    rw [trim, start]
    rfl

/-- Whether no space stands at either end of a text, which is not empty. -/
def Tight (t : Text) : Prop :=
  (∃ c rest, t = c :: rest ∧ isSpace c = false) ∧ ∃ front c, t = front ++ [c] ∧ isSpace c = false

theorem Tight.trimStart {t : Text} (h : t.Tight) : trimStart t = t := by
  obtain ⟨⟨c, rest, rfl, hc⟩, -⟩ := h
  exact trimStart_eq_self (by simpa using hc)

theorem Tight.trimEnd {t : Text} (h : t.Tight) : trimEnd t = t := by
  obtain ⟨-, front, c, rfl, hc⟩ := h
  exact trimEnd_eq_self (by simpa using hc)

theorem Tight.trim {t : Text} (h : t.Tight) : trim t = t := by
  rw [Text.trim, h.trimStart, h.trimEnd]

theorem Tight.trim_spaced {t : Text} (h : t.Tight) : Text.trim (' ' :: t ++ [' ']) = t := by
  obtain ⟨⟨c, rest, hc, space⟩, front, d, hd, space'⟩ := h
  have start : Text.trimStart (' ' :: t ++ [' ']) = t ++ [' '] := by
    simp [Text.trimStart, hc, space, show Text.isSpace ' ' = true from rfl]
  rw [Text.trim, start, hd]
  simp [Text.trimEnd, space', show Text.isSpace ' ' = true from rfl]

theorem Tight.isBlank {t : Text} (h : t.Tight) : isBlank t = false := by
  obtain ⟨⟨c, rest, rfl, hc⟩, -⟩ := h
  simp [Text.isBlank, hc]

/-- Text without any white space. -/
def Solid (t : Text) : Prop := ∀ c ∈ t, isSpace c = false

theorem Solid.trim {t : Text} (h : t.Solid) : Text.trim t = t := by
  rw [Text.trim, trimStart_eq_self fun c mem => h c (List.mem_of_mem_head? mem),
    trimEnd_eq_self fun c mem => h c (List.mem_of_getLast? mem)]

theorem Solid.tight {t : Text} (h : t.Solid) (nonempty : t ≠ []) : t.Tight := by
  constructor
  · obtain ⟨c, rest, rfl⟩ := List.exists_cons_of_ne_nil nonempty
    exact ⟨c, rest, rfl, h c List.mem_cons_self⟩
  · obtain ⟨front, c, rfl⟩ := (List.eq_nil_or_concat' t).resolve_left nonempty
    exact ⟨front, c, rfl, h c (by simp)⟩

theorem Tight.between {a b : Text} (ha : a.Tight) (hb : b.Tight) (t : Text) :
    (a ++ (t ++ b)).Tight := by
  obtain ⟨⟨c, rest, rfl, hc⟩, -⟩ := ha
  obtain ⟨-, front, d, rfl, hd⟩ := hb
  exact ⟨⟨c, _, rfl, hc⟩, c :: rest ++ (t ++ front), d, by simp, hd⟩

theorem Tight.getLast?_append {t : Text} (h : t.Tight) (a : Text) :
    ∀ c ∈ (a ++ t).getLast?, isSpace c = false := by
  obtain ⟨-, front, d, rfl, hd⟩ := h
  intro c mem
  obtain rfl : d = c := by simpa using mem
  exact hd

theorem Tight.head?_append {a : Text} (ha : ∀ c ∈ a.head?, isSpace c = false) {t : Text}
    (h : t.Tight) : ∀ c ∈ (a ++ t).head?, isSpace c = false := by
  obtain ⟨⟨d, rest, rfl, hd⟩, -⟩ := h
  intro c mem
  cases a with
  | nil =>
    obtain rfl : d = c := by simpa using mem
    exact hd
  | cons e a => exact ha c mem

/-! ## Runs -/

/-- Puts one space in place of each run of white space. -/
def squeeze : Text → Text
  | [] => []
  | c :: t =>
    if isSpace c then
      if (squeeze t).head? = some ' ' then squeeze t else ' ' :: squeeze t
    else c :: squeeze t

theorem squeeze_solid_cons {c : Char} (h : isSpace c = false) (t : Text) :
    squeeze (c :: t) = c :: squeeze t := by
  simp [squeeze, h]

theorem squeeze_space_cons {c : Char} (h : isSpace c = true) (t : Text) :
    squeeze (c :: t) = if (squeeze t).head? = some ' ' then squeeze t else ' ' :: squeeze t := by
  simp [squeeze, h]

theorem squeeze_squeeze (t : Text) : squeeze (squeeze t) = squeeze t := by
  induction t with
  | nil => rfl
  | cons c t ih =>
    by_cases space : isSpace c = true
    · rw [squeeze_space_cons space]
      by_cases front : (squeeze t).head? = some ' '
      · rw [if_pos front, ih]
      · rw [if_neg front, squeeze_space_cons rfl, ih, if_neg front]
    · rw [Bool.not_eq_true] at space
      rw [squeeze_solid_cons space, squeeze_solid_cons space, ih]

theorem squeeze_append_squeeze (a b : Text) : squeeze (a ++ squeeze b) = squeeze (a ++ b) := by
  induction a with
  | nil => exact squeeze_squeeze b
  | cons c a ih => simp only [List.cons_append, squeeze, ih]

theorem head?_squeeze_append {a b : Text} (h : (squeeze a).head? = some ' ') :
    (squeeze (a ++ b)).head? = some ' ' := by
  cases a with
  | nil => cases h
  | cons c a =>
    rw [List.cons_append]
    by_cases space : isSpace c = true
    · rw [squeeze_space_cons space]
      by_cases front : (squeeze (a ++ b)).head? = some ' '
      · rw [if_pos front, front]
      · rw [if_neg front]
        rfl
    · rw [Bool.not_eq_true] at space
      rw [squeeze_solid_cons space] at h ⊢
      exact h

theorem squeeze_squeeze_append (a b : Text) : squeeze (squeeze a ++ b) = squeeze (a ++ b) := by
  induction a with
  | nil => rfl
  | cons c a ih =>
    by_cases space : isSpace c = true
    · rw [squeeze_space_cons space, List.cons_append, squeeze_space_cons space]
      by_cases front : (squeeze a).head? = some ' '
      · rw [if_pos front, ih, if_pos (head?_squeeze_append front)]
      · rw [if_neg front, List.cons_append, squeeze_space_cons rfl, ih]
    · rw [Bool.not_eq_true] at space
      rw [squeeze_solid_cons space, List.cons_append, List.cons_append, squeeze_solid_cons space,
        squeeze_solid_cons space, ih]

/-- A character that is no space parts what is squeezed. -/
theorem squeeze_append_cons {c : Char} (h : isSpace c = false) (a b : Text) :
    squeeze (a ++ c :: b) = squeeze a ++ c :: squeeze b := by
  induction a with
  | nil => exact squeeze_solid_cons h b
  | cons d a ih =>
    have front : (squeeze a ++ c :: squeeze b).head? = some ' ' ↔ (squeeze a).head? = some ' ' := by
      cases squeeze a with
      | nil =>
        have other : c ≠ ' ' := by
          rintro rfl
          cases h
        simp [other]
      | cons e rest => simp
    rw [List.cons_append]
    by_cases space : isSpace d = true
    · rw [squeeze_space_cons space, squeeze_space_cons space, ih]
      by_cases first : (squeeze a).head? = some ' '
      · rw [if_pos (front.2 first), if_pos first]
      · rw [if_neg (mt front.1 first), if_neg first, List.cons_append]
    · rw [Bool.not_eq_true] at space
      rw [squeeze_solid_cons space, squeeze_solid_cons space, ih, List.cons_append]

theorem Solid.squeeze_append {t : Text} (h : t.Solid) (rest : Text) :
    squeeze (t ++ rest) = t ++ squeeze rest := by
  induction t with
  | nil => rfl
  | cons c t ih =>
    obtain ⟨here, later⟩ := List.forall_mem_cons.1 h
    rw [List.cons_append, squeeze_solid_cons here, ih later, List.cons_append]

theorem Tight.squeeze_append {t : Text} (h : t.Tight) (a : Text) :
    squeeze (a ++ t) = squeeze a ++ squeeze t := by
  obtain ⟨⟨c, rest, rfl, hc⟩, -⟩ := h
  rw [squeeze_append_cons hc, squeeze_solid_cons hc]

theorem Solid.squeeze {t : Text} (h : t.Solid) : squeeze t = t := by
  have whole := h.squeeze_append []
  simpa [Text.squeeze] using whole

/-- Texts are squeezed apart if no white space ends the first of them. -/
theorem squeeze_append {a : Text} (h : ∀ c ∈ a.getLast?, isSpace c = false) (b : Text) :
    squeeze (a ++ b) = squeeze a ++ squeeze b := by
  rcases List.eq_nil_or_concat' a with rfl | ⟨front, c, rfl⟩
  · rfl
  · have solid : isSpace c = false := h c (by simp)
    rw [List.append_assoc, List.singleton_append, squeeze_append_cons solid,
      squeeze_append_cons solid, List.append_assoc]
    rfl

/-- White space is squeezed to one space. -/
theorem squeeze_blank {t : Text} (nonempty : t ≠ []) (blank : ∀ c ∈ t, isSpace c = true) :
    squeeze t = [' '] := by
  induction t with
  | nil => exact absurd rfl nonempty
  | cons c t ih =>
    obtain ⟨here, later⟩ := List.forall_mem_cons.1 blank
    rw [squeeze_space_cons here]
    by_cases empty : t = []
    · rw [empty]
      rfl
    · rw [ih empty later]
      rfl

theorem eq_space_of_mem_squeeze {t : Text} {c : Char} (mem : c ∈ squeeze t)
    (space : isSpace c = true) : c = ' ' := by
  induction t with
  | nil => cases mem
  | cons d t ih =>
    rw [squeeze] at mem
    split_ifs at mem with blank front
    · exact ih mem
    · rcases List.mem_cons.1 mem with here | later
      · exact here
      · exact ih later
    · rcases List.mem_cons.1 mem with rfl | later
      · exact absurd space blank
      · exact ih later

theorem length_squeeze_le (t : Text) : (squeeze t).length ≤ t.length := by
  induction t with
  | nil => exact Nat.le_refl _
  | cons c t ih =>
    rw [squeeze]
    split_ifs
    all_goals
      simp only [List.length_cons]
      omega

/-- No two spaces stand side by side in a text that cannot be squeezed further. -/
theorem not_space_of_squeezed {a b : Text} (single : squeeze (a ++ b) = a ++ b) (nonempty : b ≠ [])
    (blank : ∀ c ∈ b, isSpace c = true) : ∀ c ∈ a.getLast?, isSpace c = false := by
  intro c last
  by_contra space
  rw [Bool.not_eq_false] at space
  rcases List.eq_nil_or_concat' a with rfl | ⟨front, d, rfl⟩
  · cases last
  · obtain rfl : d = c := by simpa using last
    have tail : squeeze (d :: b) = squeeze b := by
      rw [squeeze_space_cons space, squeeze_blank nonempty blank]
      rfl
    have shorter := length_squeeze_le (front ++ b)
    rw [← squeeze_append_squeeze, ← tail, squeeze_append_squeeze] at shorter
    rw [List.append_assoc, List.singleton_append] at single
    rw [single] at shorter
    simp only [List.length_append, List.length_cons] at shorter
    omega

theorem squeeze_trimStart (t : Text) : squeeze (trimStart t) = trimStart (squeeze t) := by
  induction t with
  | nil => rfl
  | cons c t ih =>
    by_cases space : isSpace c = true
    · have dropped : trimStart (c :: t) = trimStart t := by simp [trimStart, space]
      rw [dropped, ih, squeeze_space_cons space]
      by_cases front : (squeeze t).head? = some ' '
      · rw [if_pos front]
      · rw [if_neg front]
        simp [trimStart, show isSpace ' ' = true from rfl]
    · rw [Bool.not_eq_true] at space
      rw [squeeze_solid_cons space, trimStart_eq_self (by simpa using space),
        trimStart_eq_self (by simpa using space), squeeze_solid_cons space]

/-- Texts that are squeezed to the same can be put in each other's place. -/
theorem squeeze_append_congr {a a' b b' : Text} (front : squeeze a = squeeze a')
    (back : squeeze b = squeeze b') : squeeze (a ++ b) = squeeze (a' ++ b') := by
  rw [← squeeze_squeeze_append, front, squeeze_squeeze_append, ← squeeze_append_squeeze, back,
    squeeze_append_squeeze]

/-! ## Words -/

/-- White space parts the words before it from those behind it. -/
theorem words_append_space {c : Char} (h : isSpace c = true) (a b : Text) :
    words (a ++ c :: b) = words a ++ words b := by
  rw [words, List.splitOnP_append_cons a b h, List.filter_append]
  rfl

theorem words_space_cons {c : Char} (h : isSpace c = true) (t : Text) :
    words (c :: t) = words t := words_append_space h [] t

theorem words_append_squeeze (a t : Text) : words (a ++ squeeze t) = words (a ++ t) := by
  induction t generalizing a with
  | nil => rfl
  | cons c t ih =>
    by_cases space : isSpace c = true
    · rw [words_append_space space, squeeze_space_cons space]
      have behind : words (squeeze t) = words t := ih []
      by_cases front : (squeeze t).head? = some ' '
      · obtain ⟨rest, same⟩ := List.head?_eq_some_iff.1 front
        rw [if_pos front, ← behind, same, words_append_space rfl, words_space_cons rfl]
      · rw [if_neg front, words_append_space rfl, behind]
    · rw [Bool.not_eq_true] at space
      have grown := ih (a ++ [c])
      rw [squeeze_solid_cons space]
      simpa using grown

/-- Squeezing leaves the words as they are. -/
theorem words_squeeze (t : Text) : words (squeeze t) = words t := words_append_squeeze [] t

theorem words_eq_of_squeeze {a b : Text} (h : squeeze a = squeeze b) : words a = words b := by
  rw [← words_squeeze, h, words_squeeze]

theorem words_trimStart_append (t rest : Text) :
    words (trimStart t ++ rest) = words (t ++ rest) := by
  induction t with
  | nil => rfl
  | cons c t ih =>
    by_cases space : isSpace c = true
    · have dropped : trimStart (c :: t) = trimStart t := by simp [trimStart, space]
      rw [dropped, ih, List.cons_append, words_space_cons space]
    · rw [Bool.not_eq_true] at space
      rw [trimStart_eq_self (by simpa using space)]

theorem words_blank {t : Text} (blank : ∀ c ∈ t, isSpace c = true) : words t = [] := by
  induction t with
  | nil => rfl
  | cons c t ih =>
    obtain ⟨here, later⟩ := List.forall_mem_cons.1 blank
    rw [words_space_cons here, ih later]

theorem words_append_blank (a : Text) {t : Text} (blank : ∀ c ∈ t, isSpace c = true) :
    words (a ++ t) = words a := by
  cases t with
  | nil => rw [List.append_nil]
  | cons c t =>
    obtain ⟨here, later⟩ := List.forall_mem_cons.1 blank
    rw [words_append_space here, words_blank later, List.append_nil]

theorem words_append_trimEnd (a t : Text) : words (a ++ trimEnd t) = words (a ++ t) := by
  have whole : trimEnd t ++ (t.reverse.takeWhile isSpace).reverse = t := by
    rw [trimEnd, ← List.reverse_append, List.takeWhile_append_dropWhile, List.reverse_reverse]
  have blank : ∀ c ∈ (t.reverse.takeWhile isSpace).reverse, isSpace c = true := by
    intro c mem
    exact List.mem_takeWhile_imp (List.mem_reverse.1 mem)
  conv_rhs => rw [← whole, ← List.append_assoc, words_append_blank _ blank]

end DocComment.Text
