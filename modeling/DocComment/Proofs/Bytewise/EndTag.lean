import DocComment.Proofs.Bytewise.Fence
import Mathlib.Order.Bounds.Basic

/-!
# The first end tag of a line

An end tag is found byte by byte where a mark, the end name and the end of a word stand one behind
the other. The search for the end name goes on behind each place that it rejects, and does not miss
an end tag by that: what ends a fence is the end tag that starts before all others.
-/

set_option autoImplicit false

namespace DocComment

namespace Text

theorem drop_utf8 (a b : Text) : (utf8 (a ++ b)).drop (bytes a) = utf8 b := by
  rw [utf8_append, ← length_utf8 a, List.drop_left]

end Text

namespace Fence

/-- Whether an end tag starts at a byte of a line. An end name that ends in a letter does not count
as one if an ASCII letter or digit stands right behind it. -/
structure EndsAt (fence : Fence) (line : Text) (position : Nat) : Prop where
  mark : ∃ byte, (Text.utf8 line)[position]? = some byte ∧
    Text.onByte Command.isMark byte = true
  name : Text.utf8 fence.endName <+: (Text.utf8 line).drop (position + 1)
  bounded : fence.endName.getLast?.any Char.isAlpha = true →
    ∀ byte, (Text.utf8 line)[position + 1 + Text.bytes fence.endName]? = some byte →
      Text.onByte Char.isAlphanum byte = false

theorem endName_ascii (fence : Fence) : ∀ c ∈ fence.endName, c.toNat < 128 := by
  have all : fence.endName.all (·.toNat < 128) = true := by cases fence <;> rfl
  simpa using all

theorem bounded_iff {fence : Fence} {after : Text} : fence.bounded after = true ↔
    (fence.endName.getLast?.any Char.isAlpha = true → after.head?.any Char.isAlphanum = false) := by
  have letter : fence.endName.getLast?.any Char.isAlpha = (fence != .formula) := by
    cases fence <;> rfl
  rw [letter, bounded]
  cases fence <;> simp

theorem utf8_prefix_iff {fence : Fence} {t : Text} :
    Text.utf8 fence.endName <+: Text.utf8 t ↔ fence.endName <+: t := by
  have same := Text.Folds.id.isPrefixOf fence.endName_ascii t
  simpa [← List.isPrefixOf_iff_prefix] using same

theorem drop_mark (before : Text) {c : Char} (mark : Command.isMark c = true) (rest : Text) :
    (Text.utf8 (before ++ c :: rest)).drop (Text.bytes before + 1) = Text.utf8 rest := by
  have size : Text.bytes before + 1 = Text.bytes (before ++ [c]) := by
    simp [Bytewise.utf8Size_of_isMark mark]
  rw [List.append_cons, size, Text.drop_utf8]

theorem getElem?_endName {fence : Fence} (before : Text) {c : Char}
    (mark : Command.isMark c = true) (after : Text) :
    (Text.utf8 (before ++ c :: (fence.endName ++ after)))[
      Text.bytes before + 1 + Text.bytes fence.endName]? = (Text.utf8 after).head? := by
  rw [← List.head?_drop, ← List.drop_drop, drop_mark before mark, Text.drop_utf8]

/-- Counted in bytes or in characters, end tags start at the same places. -/
theorem endsAt_iff {fence : Fence} {line : Text} {position : Nat} :
    fence.EndsAt line position ↔ ∃ before rest, line = before ++ rest ∧
      Text.bytes before = position ∧ (fence.closeAt? rest).isSome = true := by
  constructor
  · rintro ⟨⟨byte, read, marked⟩, name, bounded⟩
    obtain ⟨before, c, rest, rfl, rfl, mark⟩ :=
      Text.exists_char_of_onByte Bytewise.ascii_isMark read marked
    rw [drop_mark before mark, utf8_prefix_iff] at name
    obtain ⟨after, rfl⟩ := name
    rw [getElem?_endName before mark] at bounded
    refine ⟨before, _, rfl, rfl, Option.isSome_iff_exists.2 ⟨after, closeAt?_eq_some.2
      ⟨c, mark, rfl, bounded_iff.2 fun letter => ?_⟩⟩⟩
    rw [← Text.any_head? Text.ascii_isAlphanum]
    cases next : (Text.utf8 after).head? with
    | none => rfl
    | some byte => exact bounded letter byte next
  · rintro ⟨before, rest, rfl, rfl, found⟩
    obtain ⟨after, tag⟩ := Option.isSome_iff_exists.1 found
    obtain ⟨c, mark, rfl, bounded⟩ := closeAt?_eq_some.1 tag
    obtain ⟨byte, peek, answers⟩ := Text.Cursor.peek_cons before c (fence.endName ++ after)
    refine ⟨⟨byte, peek, (answers _ Bytewise.ascii_isMark).trans mark⟩, ?_,
      fun letter byte next => ?_⟩
    · rw [drop_mark before mark, utf8_prefix_iff]
      exact List.prefix_append _ _
    · have apart := bounded_iff.1 bounded letter
      rw [getElem?_endName before mark] at next
      rw [← Text.any_head? Text.ascii_isAlphanum, next] at apart
      exact apart

theorem endsAt_cons {fence : Fence} {c : Char} {t : Text} {position : Nat} :
    fence.EndsAt (c :: t) position ↔ position = 0 ∧ (fence.closeAt? (c :: t)).isSome = true ∨
      ∃ later, position = c.utf8Size + later ∧ fence.EndsAt t later := by
  rw [endsAt_iff]
  constructor
  · rintro ⟨before, rest, whole, rfl, tag⟩
    cases before with
    | nil => exact .inl ⟨rfl, whole ▸ tag⟩
    | cons d before =>
      obtain ⟨rfl, rfl⟩ := List.cons.inj whole
      exact .inr ⟨Text.bytes before, rfl, endsAt_iff.2 ⟨before, rest, rfl, rfl, tag⟩⟩
  · rintro (⟨rfl, tag⟩ | ⟨later, rfl, ends⟩)
    · exact ⟨[], c :: t, rfl, rfl, tag⟩
    · obtain ⟨before, rest, rfl, rfl, tag⟩ := endsAt_iff.1 ends
      exact ⟨c :: before, rest, rfl, rfl, tag⟩

theorem not_endsAt_nil {fence : Fence} {position : Nat} : ¬fence.EndsAt [] position := by
  rintro ⟨⟨byte, read, -⟩, -, -⟩
  simp at read

theorem closeSpan?_cons (fence : Fence) (c : Char) (t : Text) : fence.closeSpan? (c :: t) =
    if (fence.closeAt? (c :: t)).isSome then some (0, c.utf8Size + Text.bytes fence.endName)
    else (fence.closeSpan? t).map fun span => (c.utf8Size + span.1, c.utf8Size + span.2) := by
  rw [closeSpan?, close?]
  cases tag : fence.closeAt? (c :: t) with
  | none => cases later : fence.close? t <;> simp [closeSpan?, later, Nat.add_assoc]
  | some after => simp

/-- What is found starts before all other end tags, and nothing is found only where there is no end
tag. -/
theorem closeSpan?_spec (fence : Fence) (line : Text) :
    match fence.closeSpan? line with
    | some (start, stop) => IsLeast {position | fence.EndsAt line position} start ∧
        stop = start + 1 + Text.bytes fence.endName
    | none => ∀ position, ¬fence.EndsAt line position := by
  induction line with
  | nil => exact fun position => not_endsAt_nil
  | cons c t ih =>
    rw [closeSpan?_cons]
    cases tag : fence.closeAt? (c :: t) with
    | some after =>
      obtain ⟨mark, marked, whole, -⟩ := closeAt?_eq_some.1 tag
      obtain ⟨rfl, -⟩ := List.cons.inj whole
      refine ⟨⟨endsAt_cons.2 (.inl ⟨rfl, by simp [tag]⟩), fun _ _ => Nat.zero_le _⟩, ?_⟩
      simp [Bytewise.utf8Size_of_isMark marked]
    | none =>
      have later {position : Nat} : fence.EndsAt (c :: t) position ↔
          ∃ inner, position = c.utf8Size + inner ∧ fence.EndsAt t inner := by
        simp [endsAt_cons, tag]
      cases found : fence.closeSpan? t with
      | none =>
        rw [found] at ih
        rintro position ends
        obtain ⟨inner, -, ends⟩ := later.1 ends
        exact ih inner ends
      | some span =>
        rw [found] at ih
        obtain ⟨⟨ends, least⟩, stop⟩ := ih
        refine ⟨⟨later.2 ⟨_, rfl, ends⟩, ?_⟩, by simp only [stop]; omega⟩
        rintro position other
        obtain ⟨inner, rfl, within⟩ := later.1 other
        exact Nat.add_le_add_left (least within) _

/-- Searching a line for its end tag finds the one that starts first, up to the end of its name, and
finds none if there is none. -/
theorem first_end_tag_found (fence : Fence) (line : Text) :
    Bytewise.closeSpan? fence line = some (fence.closeSpan? line) ∧
      (∀ start stop, fence.closeSpan? line = some (start, stop) ↔
        IsLeast {position | fence.EndsAt line position} start ∧
          stop = start + 1 + Text.bytes fence.endName) ∧
      (fence.closeSpan? line = none ↔ ∀ position, ¬fence.EndsAt line position) := by
  have spec := fence.closeSpan?_spec line
  refine ⟨Bytewise.closeSpan?_eq fence line, fun start stop => ?_, ?_⟩
  · cases found : fence.closeSpan? line with
    | none =>
      rw [found] at spec
      simpa using fun least => absurd least.1 (spec start)
    | some span =>
      obtain ⟨first, last⟩ := span
      rw [found] at spec
      constructor
      · rintro ⟨⟩
        exact spec
      · rintro ⟨least, rfl⟩
        obtain rfl : start = first := least.unique spec.1
        rw [spec.2]
  · cases found : fence.closeSpan? line with
    | none => simpa [found] using spec
    | some span =>
      rw [found] at spec
      simpa using ⟨_, spec.1.1⟩

/-- One without a mark and one in a longer word do not count. -/
example : Fence.closeSpan? .code "endcode @endcodes \\endcode".toList = some (18, 26) := by decide

end Fence

end DocComment
