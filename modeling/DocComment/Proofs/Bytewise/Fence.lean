import DocComment.Line.Fence
import DocComment.Proofs.Text.Position

/-!
# Fences in bytes

The end of a fence is found by searching the line for the end name, again and again behind each
place that turns out to be no end tag, and the argument of a fence by searching for its closing
mark. Both cut at positions that the search computes, and both find what reading character by
character finds.
-/

set_option autoImplicit false

namespace DocComment

namespace Fence

theorem closeAt?_eq_some {fence : Fence} {t after : Text} : fence.closeAt? t = some after ↔
    ∃ mark, Command.isMark mark = true ∧ t = mark :: (fence.endName ++ after) ∧
      fence.bounded after = true := by
  cases t with
  | nil => simp [closeAt?]
  | cons mark rest =>
    simp only [closeAt?, Option.ite_none_right_eq_some, Option.filter_eq_some_iff,
      Text.dropPrefix?_eq_some, List.cons.injEq]
    constructor
    · rintro ⟨marked, rfl, bounded⟩
      exact ⟨mark, marked, ⟨rfl, rfl⟩, bounded⟩
    · rintro ⟨_, marked, ⟨rfl, rfl⟩, bounded⟩
      exact ⟨marked, rfl, bounded⟩

/-- No end tag starts within what is in front. -/
theorem close?_append_of_none {fence : Fence} {front t : Text}
    (h : ∀ a b, front = a ++ b → b ≠ [] → fence.closeAt? (b ++ t) = none) :
    fence.close? (front ++ t) =
      (fence.close? t).map fun cut => { cut with before := front ++ cut.before } := by
  induction front with
  | nil => simp
  | cons c front ih =>
    have here := h [] (c :: front) rfl (by simp)
    rw [List.cons_append] at here ⊢
    rw [close?, here, ih fun a b split => h (c :: a) b (by simp [split]), Option.map_map]
    rfl

theorem close?_eq_none {fence : Fence} {t : Text} (h : ¬fence.endName <:+: t) :
    fence.close? t = none := by
  have nowhere : ∀ a b, t = a ++ b → b ≠ [] → fence.closeAt? (b ++ []) = none := by
    intro a b split _
    rw [List.append_nil, ← Option.not_isSome_iff_eq_none, Option.isSome_iff_exists]
    rintro ⟨after, tag⟩
    obtain ⟨mark, -, rfl, -⟩ := closeAt?_eq_some.1 tag
    exact h ⟨a ++ [mark], after, by simp [split]⟩
  simpa [close?] using close?_append_of_none nowhere

theorem endName_unmarked (fence : Fence) : ∀ c ∈ fence.endName, Command.isMark c = false := by
  have none : fence.endName.any Command.isMark = false := by cases fence <;> rfl
  simpa using none

theorem endName_ne_nil (fence : Fence) : fence.endName ≠ [] := by
  cases fence <;> exact List.cons_ne_nil _ _

theorem bytes_endName_pos (fence : Fence) : 0 < Text.bytes fence.endName := by
  cases fence <;> exact Nat.add_pos_left (Char.utf8Size_pos _) _

end Fence

namespace Bytewise

/-! ## The end of a fence -/

/-- Whether the byte before a position is a command mark. -/
def marked? (line : Text) (position : Nat) : Option Bool :=
  if position = 0 then some false
  else (Text.Cursor.mk line position).previous.map (Text.onByte Command.isMark)

/-- Whether the end name may stand before a position. Only a name that ends in a letter minds. -/
def bounded? (fence : Fence) (line : Text) (position : Nat) : Option Bool :=
  (Text.utf8 fence.endName).getLast?.map fun last =>
    !Text.onByte Char.isAlpha last ||
      !(Text.Cursor.mk line position).peek.any (Text.onByte Char.isAlphanum)

/-- Where the first end tag from `start` on starts and ends. -/
def closeFrom? (fence : Fence) (line : Text) (start : Nat) : Option (Option (Nat × Nat)) :=
  match _ : Text.dropBytes? start line with
  | none => none
  | some rest =>
    match Text.search? fence.endName rest with
    | none => some none
    | some offset => do
      let marked ← marked? line (start + offset)
      let bounded ← bounded? fence line (start + offset + Text.bytes fence.endName)
      if marked && bounded then
        some (some (start + offset - 1, start + offset + Text.bytes fence.endName))
      else closeFrom? fence line (start + offset + Text.bytes fence.endName)
termination_by Text.bytes line + 1 - start
decreasing_by
  have := Text.le_of_dropBytes? ‹_›
  have := fence.bytes_endName_pos
  omega

def closeSpan? (fence : Fence) (line : Text) : Option (Option (Nat × Nat)) :=
  closeFrom? fence line 0

theorem ascii_isMark : Text.Ascii Command.isMark :=
  Text.ascii_or (Text.ascii_eq (by decide)) (Text.ascii_eq (by decide))

theorem utf8Size_of_isMark {c : Char} (h : Command.isMark c = true) : c.utf8Size = 1 := by
  simp only [Command.isMark, Bool.or_eq_true, beq_iff_eq] at h
  rcases h with rfl | rfl <;> rfl

theorem marked?_bytes (before rest : Text) :
    marked? (before ++ rest) (Text.bytes before) = some (before.getLast?.any Command.isMark) := by
  have previous := Text.Cursor.previous_between before rest
  rw [Text.Cursor.between] at previous
  rw [marked?, previous, Text.map_getLast? ascii_isMark]
  split
  next none =>
    cases before with
    | nil => rfl
    | cons c before => simp [c.utf8Size_pos.ne'] at none
  next some =>
    have nonempty : before ≠ [] := fun empty => some (by simp [empty])
    rw [List.getLast?_eq_some_getLast nonempty]
    rfl

theorem bounded?_bytes (fence : Fence) (before after : Text) :
    bounded? fence (before ++ after) (Text.bytes before) = some (fence.bounded after) := by
  have peek := Text.Cursor.peek_between before after
  rw [Text.Cursor.between] at peek
  have letter : (Text.utf8 fence.endName).getLast?.map (Text.onByte Char.isAlpha) =
      some (fence != .formula) := by
    cases fence <;> rfl
  obtain ⟨last, found, same⟩ := Option.map_eq_some_iff.1 letter
  rw [bounded?, peek, Text.any_head? Text.ascii_isAlphanum, found, Option.map_some, same,
    Fence.bounded, bne, Bool.not_not]

section

variable {fence : Fence} {before skipped later : Text}
  (first : ∀ a b, skipped = a ++ b → b ≠ [] → ¬fence.endName <+: b ++ (fence.endName ++ later))
include first

/-- The first end name ends an end tag if a mark stands before it and nothing goes on behind it. -/
theorem close?_first {front : Text} {mark : Char} (split : skipped = front ++ [mark])
    (marked : Command.isMark mark = true) (bounded : fence.bounded later = true) :
    fence.close? (skipped ++ (fence.endName ++ later)) =
      some ⟨front, mark :: fence.endName, later⟩ := by
  have here : fence.closeAt? (mark :: (fence.endName ++ later)) = some later :=
    Fence.closeAt?_eq_some.2 ⟨mark, marked, rfl, bounded⟩
  have nowhere : ∀ a b, front = a ++ b → b ≠ [] →
      fence.closeAt? (b ++ mark :: (fence.endName ++ later)) = none := by
    intro a b cut nonempty
    rw [← Option.not_isSome_iff_eq_none, Option.isSome_iff_exists]
    rintro ⟨after, tag⟩
    obtain ⟨other, -, whole, -⟩ := Fence.closeAt?_eq_some.1 tag
    obtain ⟨c, b, rfl⟩ := List.exists_cons_of_ne_nil nonempty
    obtain ⟨rfl, same⟩ := List.cons.inj whole
    exact first (a ++ [c]) (b ++ [mark]) (by simp [split, cut]) (by simp) ⟨after, by simp [← same]⟩
  rw [split, List.append_assoc, List.singleton_append, Fence.close?_append_of_none nowhere,
    Fence.close?, here]
  simp

/-- Otherwise no end tag starts before the end of that name, since no name holds a mark. -/
theorem close?_later
    (rejected : (skipped.getLast?.any Command.isMark && fence.bounded later) = false) :
    fence.close? (skipped ++ (fence.endName ++ later)) =
      (fence.close? later).map fun cut =>
        { cut with before := skipped ++ fence.endName ++ cut.before } := by
  have nowhere : ∀ a b, skipped ++ fence.endName = a ++ b → b ≠ [] →
      fence.closeAt? (b ++ later) = none := by
    intro a b cut nonempty
    rw [← Option.not_isSome_iff_eq_none, Option.isSome_iff_exists]
    rintro ⟨after, tag⟩
    obtain ⟨mark, marked, whole, bounded⟩ := Fence.closeAt?_eq_some.1 tag
    obtain ⟨c, b, rfl⟩ := List.exists_cons_of_ne_nil nonempty
    obtain ⟨rfl, same⟩ := List.cons.inj whole
    have outside : c ∉ fence.endName := fun mem => by
      rw [fence.endName_unmarked c mem] at marked
      cases marked
    rcases List.append_eq_append_iff.1 cut with ⟨x, rfl, inside⟩ | ⟨x, rfl, inside⟩
    · exact outside (by simp [inside])
    rcases x with _ | ⟨d, _ | ⟨e, x⟩⟩
    · rw [List.nil_append] at inside
      exact outside (inside ▸ List.mem_cons_self)
    · -- the mark stands right before the name that was rejected
      obtain ⟨rfl, rfl⟩ := List.cons.inj inside
      obtain rfl : later = after := List.append_cancel_left same
      simp [marked, bounded] at rejected
    · obtain ⟨rfl, rfl⟩ := List.cons.inj inside
      exact first (a ++ [c]) (e :: x) (by simp) (by simp) ⟨after, by simpa using same.symm⟩
  rw [← List.append_assoc, Fence.close?_append_of_none nowhere]

end

/-- What the search finds behind `before` is the first end tag there, as long as no mark in front
belongs to a name behind it. -/
theorem closeFrom?_eq (fence : Fence) {before : Text}
    (unmarked : before.getLast?.any Command.isMark = false) (rest : Text) :
    closeFrom? fence (before ++ rest) (Text.bytes before) =
      some ((fence.close? rest).map fun cut => (Text.bytes before + Text.bytes cut.before,
        Text.bytes before + Text.bytes cut.before + Text.bytes cut.tag)) := by
  induction size : rest.length using Nat.strong_induction_on generalizing before rest with
  | h n ih =>
  subst size
  rw [closeFrom?]
  split
  next outside => simp at outside
  next found =>
  obtain rfl : rest = _ := by simpa using found
  cases found : Text.search? fence.endName rest with
  | none => rw [Fence.close?_eq_none (Text.search?_eq_none found)]; rfl
  | some offset =>
    obtain ⟨skipped, later, rfl, rfl, first⟩ := Text.search?_eq_some found
    have marked := marked?_bytes (before ++ skipped) (fence.endName ++ later)
    have bounded := bounded?_bytes fence (before ++ skipped ++ fence.endName) later
    simp only [List.append_assoc, Text.bytes_append] at marked bounded
    simp only [marked, Nat.add_assoc, bounded, Option.bind_eq_bind, Option.bind_some]
    split
    next tag =>
      simp only [Bool.and_eq_true] at tag
      rcases List.eq_nil_or_concat' skipped with rfl | ⟨front, mark, rfl⟩
      · rw [List.append_nil, unmarked] at tag
        cases tag.1
      have isMark : Command.isMark mark = true := by simpa [List.getLast?_append] using tag.1
      rw [close?_first first rfl isMark tag.2]
      simp [utf8Size_of_isMark isMark]
      omega
    next other =>
      have rejected : (skipped.getLast?.any Command.isMark && fence.bounded later) = false := by
        rw [Bool.not_eq_true] at other
        cases back : skipped.getLast? with
        | none => rfl
        | some c => simpa [List.getLast?_append, back] using other
      have shorter : later.length < (skipped ++ (fence.endName ++ later)).length := by
        have := List.length_pos_iff.2 fence.endName_ne_nil
        simp only [List.length_append]
        omega
      have plain : (before ++ (skipped ++ fence.endName)).getLast?.any Command.isMark = false := by
        have back := List.getLast?_eq_some_getLast fence.endName_ne_nil
        have last := fence.endName_unmarked _ (List.getLast_mem fence.endName_ne_nil)
        simp [List.getLast?_append, back, last]
      have again := ih _ shorter plain later rfl
      rw [close?_later first rejected]
      simpa [Function.comp_def, Nat.add_assoc] using again

theorem closeSpan?_eq (fence : Fence) (line : Text) :
    closeSpan? fence line = some (fence.closeSpan? line) := by
  simpa [closeSpan?, Fence.closeSpan?] using @closeFrom?_eq fence [] rfl line

/-! ## The argument of a fence -/

/-- What stands before the first `mark` of a text and what follows it. -/
def cutAt? (mark : Char) (t : Text) : Option (Option (Text × Text)) :=
  match Text.search? [mark] t with
  | none => some none
  | some position => do
    let before ← Text.takeBytes? position t
    let after ← Text.dropBytes? (position + 1) t
    some (some (before, after))

def argument? (fence : Fence) (rest : Text) : Option (Option Text × Text) :=
  match fence with
  | .code =>
    match Text.dropPrefix? ['{'] rest with
    | some inner => (cutAt? '}' inner).map fun cut =>
      match cut with
      | some (lang, body) =>
        let lang := (Text.trim lang).dropWhile (· == '.')
        (if lang.isEmpty then none else some lang, body)
      | none => (none, rest)
    | none => some (none, rest)
  | .dot | .msc =>
    match Text.dropPrefix? ['"'] (Text.trimStart rest) with
    | some inner => (cutAt? '"' inner).map fun cut =>
      match cut with
      | some (caption, body) => (some caption, body)
      | none => (none, rest)
    | none => some (none, rest)
  | _ => some (none, rest)

theorem cutAt?_eq (mark : Char) (single : mark.utf8Size = 1) (t : Text) :
    cutAt? mark t = some (Text.splitFirst? (· == mark) t) := by
  unfold cutAt?
  cases found : Text.search? [mark] t with
  | none =>
    have absent : ∀ c ∈ t, (c == mark) = false := by
      intro c mem
      rw [beq_eq_false_iff_ne]
      rintro rfl
      obtain ⟨a, b, rfl⟩ := List.append_of_mem mem
      exact Text.search?_eq_none found ⟨a, b, by simp⟩
    rw [Text.splitFirst?_of_not absent]
  | some position =>
    obtain ⟨before, after, rfl, rfl, first⟩ := Text.search?_eq_some found
    have absent : ∀ c ∈ before, (c == mark) = false := by
      intro c mem
      rw [beq_eq_false_iff_ne]
      rintro rfl
      obtain ⟨a, b, rfl⟩ := List.append_of_mem mem
      exact first a (c :: b) rfl (by simp) ⟨b ++ ([c] ++ after), by simp⟩
    have behind : Text.dropBytes? (Text.bytes before + 1) (before ++ ([mark] ++ after)) =
        some after := by
      simpa [single] using Text.dropBytes?_bytes (before ++ [mark]) after
    dsimp only
    rw [behind, Text.takeBytes?_bytes, List.singleton_append,
      Text.splitFirst?_at absent (by simp) after]
    rfl

theorem argument?_eq (fence : Fence) (rest : Text) :
    argument? fence rest = some (fence.argument rest) := by
  have brace := cutAt?_eq '}' rfl
  have quote := cutAt?_eq '"' rfl
  unfold argument? Fence.argument
  cases fence with
  | code =>
    cases opened : Text.dropPrefix? ['{'] rest with
    | some inner =>
      obtain rfl := Text.dropPrefix?_eq_some.1 opened
      dsimp only
      rw [brace]
      rfl
    | none =>
      dsimp only
      split
      next inner => simp [Text.dropPrefix?] at opened
      next => rfl
  | dot | msc =>
    cases opened : Text.dropPrefix? ['"'] (Text.trimStart rest) with
    | some inner =>
      have trimmed := Text.dropPrefix?_eq_some.1 opened
      dsimp only
      rw [trimmed, quote]
      rfl
    | none =>
      dsimp only
      split
      next inner trimmed => simp [trimmed, Text.dropPrefix?] at opened
      next => rfl
  | htmlOnly | xmlOnly | verbatim | formula => rfl

end Bytewise

end DocComment
