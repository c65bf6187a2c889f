import DocComment.Block.List
import Mathlib.Data.List.Basic

/-!
# Levels of a list

The outermost level stays open at the indent of the first item, and an item that is indented less
counts as indented like it. With that, an item leaves open what is indented less than itself and
opens a level of its own. All that holds of depths follows from this one equation.
-/

set_option autoImplicit false

namespace DocComment.ListDraft

/-! ## One item -/

/-- Whether levels can be open in a list whose first item has this indent: the level of the first
item is open, and every level is indented more than the one around it. -/
structure OpenUnder (first : Nat) (levels : List Nat) : Prop where
  outermost : first ∈ levels
  above : ∀ level ∈ levels, first ≤ level
  nested : levels.Pairwise (· > ·)

variable {first : Nat} {levels : List Nat}

theorem OpenUnder.lt_of_inner {inner outer : Nat} {rest : List Nat}
    (opened : OpenUnder first (inner :: outer :: rest)) :
    first < inner ∧ OpenUnder first (outer :: rest) := by
  obtain ⟨further, inside⟩ := List.pairwise_cons.1 opened.nested
  have around : first ≤ outer := opened.above outer (by simp)
  have deep : first < inner := Nat.lt_of_le_of_lt around (further outer List.mem_cons_self)
  refine ⟨deep, List.mem_of_ne_of_mem (Nat.ne_of_lt deep) opened.outermost, ?_, inside⟩
  intro level mem
  exact opened.above level (List.mem_cons_of_mem inner mem)

/-- Of nested levels, those that are indented less than the innermost are the ones around it. -/
theorem filter_of_level {inner : Nat} {rest : List Nat}
    (nested : (inner :: rest).Pairwise (· > ·)) : (inner :: rest).filter (· < inner) = rest := by
  obtain ⟨further, -⟩ := List.pairwise_cons.1 nested
  rw [List.filter_cons_of_neg (by simp), List.filter_eq_self]
  intro level mem
  simpa using further level mem

theorem filter_of_deeper {indent inner : Nat} {rest : List Nat}
    (nested : (inner :: rest).Pairwise (· > ·)) (deeper : inner < indent) :
    (inner :: rest).filter (· < indent) = inner :: rest := by
  obtain ⟨further, -⟩ := List.pairwise_cons.1 nested
  rw [List.filter_eq_self]
  intro level mem
  rw [decide_eq_true_eq]
  rcases List.mem_cons.1 mem with rfl | around
  · exact deeper
  · exact Nat.lt_trans (further level around) deeper

/-- The levels that are open at an item: those that are indented less, and its own. -/
theorem enter_eq (opened : OpenUnder first levels) (indent : Nat) :
    enter indent levels = max indent first :: levels.filter (· < max indent first) := by
  -- along the levels that the item leaves; the outermost is never left
  fun_induction leave indent levels with
  | case1 inner outer rest less ih =>
    obtain ⟨deep, around⟩ := opened.lt_of_inner
    have left : enter indent (inner :: outer :: rest) = enter indent (outer :: rest) := by
      rw [enter, enter, leave, if_pos less]
    have out : ¬inner < max indent first := by omega
    rw [left, ih around, List.filter_cons_of_neg (a := inner) (by simpa using out)]
  | case2 inner outer rest notLess =>
    obtain ⟨deep, -⟩ := opened.lt_of_inner
    have own : max indent first = indent := by omega
    rw [enter, leave, if_neg notLess, own]
    dsimp only
    split
    · obtain rfl : indent = inner := by omega
      rw [filter_of_level opened.nested]
    · rw [filter_of_deeper opened.nested (by omega)]
  | case3 levels single =>
    obtain rfl : levels = [first] := by
      cases levels with
      | nil => cases opened.outermost
      | cons inner rest =>
        cases rest with
        | nil => simpa [eq_comm] using opened.outermost
        | cons outer rest => exact absurd rfl (single inner outer rest)
    rw [enter, leave.eq_2 _ _ single]
    dsimp only
    split
    · next shallow => rw [Nat.max_eq_right shallow, filter_of_level opened.nested]
    · next deep =>
      rw [Nat.max_eq_left (by omega), filter_of_deeper opened.nested (by omega)]

theorem OpenUnder.enter (opened : OpenUnder first levels) (indent : Nat) :
    OpenUnder first (enter indent levels) := by
  rw [enter_eq opened]
  refine ⟨?_, ?_, ?_⟩
  · by_cases deeper : first < indent
    · have kept : first < max indent first := by omega
      exact List.mem_cons_of_mem _ (List.mem_filter.2 ⟨opened.outermost, by simpa using kept⟩)
    · rw [Nat.max_eq_right (by omega)]
      exact List.mem_cons_self
  · intro level mem
    rcases List.mem_cons.1 mem with rfl | around
    · exact Nat.le_max_right indent first
    · exact opened.above level (List.mem_of_mem_filter around)
  · refine List.pairwise_cons.2 ⟨?_, opened.nested.filter _⟩
    intro level mem
    simpa using List.of_mem_filter mem

/-! ## All items -/

/-- The levels that are open after the first `n` items. -/
def levelsAfter (indents : List Nat) (n : Nat) : List Nat :=
  (indents.take n).foldl (fun levels indent => enter indent levels) []

/-- How deep the `n`th item stands. -/
def depthAt (indents : List Nat) (n : Nat) : Nat := (levelsAfter indents (n + 1)).length - 1

variable {indents : List Nat}

theorem levelsAfter_enter {n indent : Nat} (here : indents[n]? = some indent) :
    levelsAfter indents (n + 1) = enter indent (levelsAfter indents n) := by
  rw [levelsAfter, List.take_add_one, List.foldl_append, here]
  rfl

/-- Later items do not matter. -/
theorem levelsAfter_append (later : List Nat) {n : Nat} (within : n ≤ indents.length) :
    levelsAfter (indents ++ later) n = levelsAfter indents n := by
  rw [levelsAfter, List.take_append_of_le_length within, levelsAfter]

theorem openUnder_levelsAfter (start : indents[0]? = some first) {n : Nat}
    (within : n < indents.length) : OpenUnder first (levelsAfter indents (n + 1)) := by
  induction n with
  | zero =>
    rw [levelsAfter_enter start]
    exact ⟨List.mem_cons_self, by simp [levelsAfter, enter, leave], List.pairwise_singleton _ _⟩
  | succ n ih =>
    rw [levelsAfter_enter (List.getElem?_eq_getElem within)]
    exact (ih (by omega)).enter _

/-- What is open after an item in terms of what was open before it. -/
theorem levelsAfter_succ (start : indents[0]? = some first) {n indent : Nat}
    (here : indents[n]? = some indent) :
    levelsAfter indents (n + 1) =
      max indent first :: (levelsAfter indents n).filter (· < max indent first) := by
  cases n with
  | zero =>
    obtain rfl : indent = first := by simpa [start] using here.symm
    rw [Nat.max_self]
    exact levelsAfter_enter here
  | succ n =>
    have within := (List.getElem?_eq_some_iff.1 here).1
    rw [levelsAfter_enter here, enter_eq (openUnder_levelsAfter start (by omega))]

/-- An item stands as deep as there are open levels that are indented less. -/
theorem depthAt_eq (start : indents[0]? = some first) {n indent : Nat}
    (here : indents[n]? = some indent) :
    depthAt indents n = (levelsAfter indents n).countP (· < max indent first) := by
  rw [depthAt, levelsAfter_succ start here, List.length_cons, Nat.add_sub_cancel,
    List.countP_eq_length_filter]

theorem length_levelsAfter (start : indents[0]? = some first) {n indent : Nat}
    (here : indents[n]? = some indent) :
    (levelsAfter indents (n + 1)).length = depthAt indents n + 1 := by
  rw [depthAt_eq start here, levelsAfter_succ start here, List.length_cons,
    List.countP_eq_length_filter]

/-- What is indented less than two items was there before the first of them. -/
theorem countP_levelsAfter (start : indents[0]? = some first) {n indent bound : Nat}
    (here : indents[n]? = some indent) (below : bound ≤ max indent first) :
    (levelsAfter indents (n + 1)).countP (· < bound) =
      (levelsAfter indents n).countP (· < bound) := by
  rw [levelsAfter_succ start here, List.countP_cons_of_neg, List.countP_filter]
  · apply List.countP_congr
    intro level mem
    simp only [Bool.and_eq_true, decide_eq_true_eq, and_iff_left_iff_imp]
    omega
  · rw [decide_eq_true_eq]
    exact Nat.not_lt.2 below

/-! ## Depths -/

theorem depthAt_zero (start : indents[0]? = some first) : depthAt indents 0 = 0 := by
  rw [depthAt_eq start start]
  rfl

theorem depthAt_succ_le (start : indents[0]? = some first) {n indent next : Nat}
    (here : indents[n]? = some indent) (after : indents[n + 1]? = some next) :
    depthAt indents (n + 1) ≤ depthAt indents n + 1 := by
  rw [← length_levelsAfter start here, depthAt_eq start after]
  exact List.countP_le_length

/-- No item is deeper than one before it that is indented as far or further. -/
theorem depthAt_succ_of_le (start : indents[0]? = some first) {n indent next : Nat}
    (here : indents[n]? = some indent) (after : indents[n + 1]? = some next)
    (le : next ≤ indent) : depthAt indents (n + 1) ≤ depthAt indents n := by
  have below : max next first ≤ max indent first := by omega
  rw [depthAt_eq start after, depthAt_eq start here, countP_levelsAfter start here below]
  apply List.countP_mono_left
  intro level mem
  simp only [decide_eq_true_eq]
  omega

/-- An item that is indented further is one level deeper, if it is indented further than the first
item as well. -/
theorem depthAt_succ_of_lt (start : indents[0]? = some first) {n indent next : Nat}
    (here : indents[n]? = some indent) (after : indents[n + 1]? = some next)
    (lt : indent < next) (deeper : first < next) :
    depthAt indents (n + 1) = depthAt indents n + 1 := by
  rw [← length_levelsAfter start here, depthAt_eq start after, List.countP_eq_length]
  intro level mem
  rw [levelsAfter_succ start here] at mem
  rw [decide_eq_true_eq]
  rcases List.mem_cons.1 mem with rfl | around
  · omega
  · have less : level < max indent first := by simpa using List.of_mem_filter around
    omega

/-- An item that is not indented further than the first stands on the outermost level. -/
theorem depthAt_of_le_first (start : indents[0]? = some first) {n indent : Nat}
    (here : indents[n]? = some indent) (le : indent ≤ first) : depthAt indents n = 0 := by
  rw [depthAt_eq start here, List.countP_eq_zero]
  intro level mem
  cases n with
  | zero => cases mem
  | succ n =>
    have within := (List.getElem?_eq_some_iff.1 here).1
    have above := (openUnder_levelsAfter start (by omega)).above level mem
    simp only [decide_eq_true_eq]
    omega

/-- An item is as deep as an earlier one that is indented like it, if none in between is indented
less. -/
theorem depthAt_of_return (start : indents[0]? = some first) {p q indent : Nat} (order : p < q)
    (from' : indents[p]? = some indent) (to' : indents[q]? = some indent)
    (between : ∀ k next, p < k → k < q → indents[k]? = some next → indent ≤ next) :
    depthAt indents q = depthAt indents p := by
  have within := (List.getElem?_eq_some_iff.1 to').1
  -- the levels around the earlier item stay open up to the later one
  have kept (d : Nat) (before : p + d < q) :
      (levelsAfter indents (p + d + 1)).countP (· < max indent first) = depthAt indents p := by
    induction d with
    | zero =>
      rw [Nat.add_zero, countP_levelsAfter start from' (Nat.le_refl _), depthAt_eq start from']
    | succ d ih =>
      have here : indents[p + (d + 1)]? = some indents[p + (d + 1)] :=
        List.getElem?_eq_getElem (by omega)
      have further := between (p + (d + 1)) _ (by omega) before here
      rw [countP_levelsAfter start here (by omega)]
      exact ih (by omega)
  obtain ⟨d, rfl⟩ : ∃ d, q = p + d + 1 := ⟨q - p - 1, by omega⟩
  rw [depthAt_eq start to', kept d (by omega)]

end DocComment.ListDraft
