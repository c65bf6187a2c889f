import DocComment.Proofs.Line.Stream
import DocComment.Proofs.Line.TokenSize
import DocComment.Proofs.Text.Space

/-!
# What tokens spell

A token keeps the text that it was read from, and the texts of the tokens of a line put together
are the line; a blank line counts as empty. There are two exceptions. White space alone before the
first command of a line, or next to an end tag, is in no token. What follows the opener of a fence
on its line is in two.
-/

set_option autoImplicit false

namespace DocComment

namespace Segments

theorem ofLine_join (t : Text) :
    (ofLine t).text ++ (((ofLine t).commands.map CommandText.raw).flatten ++
      (ofLine t).openerText) = t :=
  cut_join true false t

end Segments

namespace Token

/-- What a token contributes to the text of its line. -/
def spelling (token : Token) : Text := if token.isBlank then [] else token.raw

/-- The text of some tokens. -/
def spell (tokens : List Token) : Text := tokens.flatMap spelling

@[simp]
theorem spell_nil : spell [] = [] := rfl

@[simp]
theorem spell_cons (token : Token) (tokens : List Token) :
    spell (token :: tokens) = token.spelling ++ spell tokens := by
  simp [spell]

@[simp]
theorem spell_append (a b : List Token) : spell (a ++ b) = spell a ++ spell b := by
  simp [spell]

theorem spelling_of_ne {token : Token} (h : token.kind ≠ .blank) : token.spelling = token.raw := by
  simp [spelling, isBlank, h]

/-- A text outside fences, without white space that stands alone before its first command. -/
def keptText (t : Text) : Text :=
  let front := (Segments.ofLine t).text
  if Text.isBlank front then t.drop front.length else t

/-- What the tokens of a line hold of it, where `fence` is open. -/
def kept (fence : Option Fence) (t : Text) : Text :=
  match fence with
  | none => if Text.isBlank t then [] else keptText t
  | some fence =>
    match fence.close? t with
    | none => t
    | some cut => Text.trimEnd cut.before ++ (cut.tag ++ keptText (Text.trimStart cut.after))

/-! ## One line -/

theorem ofText_ne_blank (t : Text) : Kind.ofText t ≠ .blank := by
  unfold Kind.ofText
  split <;> simp

theorem ofCommand_ne_blank (column : Nat) (command : CommandText) :
    Kind.ofCommand column command ≠ .blank := by
  unfold Kind.ofCommand
  split <;> simp

theorem spell_ofText (line : Nat) (t : Text) :
    spell (ofText line t) = if Text.isBlank t then [] else t := by
  unfold ofText
  split
  · rfl
  · simp [spelling_of_ne, ofText_ne_blank]

theorem spell_ofCommands (line column : Nat) (commands : List CommandText) :
    spell (ofCommands line column commands) = (commands.map CommandText.raw).flatten := by
  induction commands generalizing column with
  | nil => rfl
  | cons command rest ih => simp [ofCommands, ih, spelling_of_ne, ofCommand_ne_blank]

theorem spell_beforeOpener (line : Nat) (t : Text) :
    spell (beforeOpener line t) ++ (Segments.ofLine t).openerText = keptText t := by
  have parts := Segments.ofLine_join t
  rw [beforeOpener, spell_append, spell_ofText, spell_ofCommands, List.append_assoc, keptText]
  split
  · have rest := congrArg (List.drop (Segments.ofLine t).text.length) parts
    rwa [List.drop_left] at rest
  · exact parts

theorem spell_scan_none {line : Nat} {t : Text}
    (once : ∀ token ∈ (scan line none t).1, token.repeats = false) :
    spell (scan line none t).1 = keptText t := by
  have before := spell_beforeOpener line t
  cases opened : (Segments.ofLine t).opener with
  | none =>
    rw [scan_unopened opened]
    simpa [Segments.openerText, opened] using before
  | some o =>
    obtain ⟨fence, raw⟩ := o
    have start : (fenceStart line fence raw).1.spelling = raw :=
      spelling_of_ne (by simp [fenceStart])
    rw [scan_opened opened] at once ⊢
    dsimp only at once ⊢
    have alone : Text.isBlank (fenceStart line fence raw).2 = true := by
      by_contra body
      rw [if_neg body] at once
      have : (fenceStart line fence raw).1.repeats = false := once _ (by simp)
      exact body (by simpa [repeats, fenceStart, sameLineBody] using this)
    rw [if_pos alone]
    simpa [Segments.openerText, opened, start] using before

theorem spell_fenceEnd (line : Nat) (fence : Fence) (cut : Fence.Closing) :
    spell (fenceEnd line fence cut) = Text.trimEnd cut.before ++ cut.tag := by
  unfold fenceEnd
  dsimp only
  split
  next blank =>
    have twice := Text.trimEnd_blank (List.all_eq_true.mp blank)
    rw [Text.trimEnd_trimEnd] at twice
    simp [spelling_of_ne, twice]
  next => simp [spelling_of_ne]

theorem spell_scan {line : Nat} {fence : Fence} {t : Text}
    (once : ∀ token ∈ (scan line (some fence) t).1, token.repeats = false) :
    spell (scan line (some fence) t).1 = kept (some fence) t := by
  cases closed : fence.close? t with
  | none =>
    rw [scan_unclosed closed]
    simp [spelling_of_ne, kept, closed]
  | some cut =>
    rw [scan_closed closed] at once ⊢
    have later := spell_scan_none fun token mem => once token (List.mem_append_right _ mem)
    rw [spell_append, spell_fenceEnd, later, List.append_assoc]
    simp [kept, closed]

/-- A line is spelled by its tokens. -/
theorem spell_ofLine {line : Nat} {fence : Option Fence} {t : Text}
    (once : ∀ token ∈ (ofLine line fence t).1, token.repeats = false) :
    spell (ofLine line fence t).1 = kept fence t := by
  unfold ofLine at once ⊢
  cases fence with
  | some fence => exact spell_scan once
  | none =>
    cases blank : Text.isBlank t with
    | true => simp [blank, spelling, isBlank, kept]
    | false =>
      simp only [blank, Bool.and_false, Bool.false_eq_true, if_false] at once ⊢
      simpa [kept, blank] using spell_scan_none once

theorem ofLine_ne_nil (line : Nat) (fence : Option Fence) (t : Text) :
    (ofLine line fence t).1 ≠ [] := by
  unfold ofLine
  split
  next => simp
  next full =>
    cases fence with
    | some fence =>
      cases closed : fence.close? t with
      | none => simp [scan_unclosed closed]
      | some cut => simp [scan_closed closed, fenceEnd]
    | none =>
      cases opened : (Segments.ofLine t).opener with
      | some o =>
        rw [scan_opened opened]
        dsimp only
        split <;> simp
      | none =>
        rw [scan_unopened opened]
        intro nothing
        have parts := Segments.ofLine_join t
        obtain ⟨text, commands⟩ := List.append_eq_nil_iff.mp nothing
        have blank : Text.isBlank (Segments.ofLine t).text = true := by
          by_contra shown
          simp [ofText, shown] at text
        have uncut : (Segments.ofLine t).commands = [] := by
          cases h : (Segments.ofLine t).commands with
          | nil => rfl
          | cons command rest => simp [h, ofCommands] at commands
        rw [uncut, Segments.openerText, opened] at parts
        have same : (Segments.ofLine t).text = t := by simpa using parts
        rw [same] at blank
        simp [blank] at full

/-! ## All lines -/

/-- What the tokens of some lines hold of them, line by line. -/
def keptLines : Option Fence → List Text → List Text
  | _, [] => []
  | fence, t :: rest => kept fence t :: keptLines (ofLine 0 fence t).2 rest

theorem ofLine_snd (line : Nat) (fence : Option Fence) (t : Text) :
    (ofLine line fence t).2 = (ofLine 0 fence t).2 := by
  simpa using congrArg Prod.snd (ofLine_shift line 0 fence t)

/-! ## Lines in full -/

/-- Whether no white space of a text outside fences stands alone before its first command. -/
def flush (t : Text) : Bool :=
  let front := (Segments.ofLine t).text
  front.isEmpty || !Text.isBlank front

/-- Whether no white space of a line stands alone before its first command or next to the end tag of
a fence. A line of white space outside fences has no such white space. -/
def whole : Option Fence → Text → Bool
  | none, t => Text.isBlank t || flush t
  | some fence, t =>
    match fence.close? t with
    | none => true
    | some cut =>
      cut.before.getLast?.all (!Text.isSpace ·) && cut.after.head?.all (!Text.isSpace ·) &&
        flush cut.after

def allWhole : Option Fence → List Text → Bool
  | _, [] => true
  | fence, t :: rest => whole fence t && allWhole (ofLine 0 fence t).2 rest

/-- The same lines, where those of white space that are in no fence count as empty. -/
def emptied : Option Fence → List Text → List Text
  | _, [] => []
  | fence, t :: rest =>
    (if fence.isNone && Text.isBlank t then [] else t) :: emptied (ofLine 0 fence t).2 rest

theorem keptText_of_flush {t : Text} (h : flush t = true) : keptText t = t := by
  unfold keptText flush at *
  dsimp only at *
  split
  next blank =>
    have none : (Segments.ofLine t).text = [] := by simpa [blank] using h
    rw [none, List.length_nil, List.drop_zero]
  next => rfl

/-- A line with an end tag is what its tokens hold, if nothing is trimmed there. -/
theorem kept_of_whole {fence : Option Fence} {t : Text} (h : whole fence t = true) :
    kept fence t = if fence.isNone && Text.isBlank t then [] else t := by
  cases fence with
  | none =>
    by_cases blank : Text.isBlank t = true
    · simp [kept, blank]
    · have starts : flush t = true := by simpa [whole, blank] using h
      simp [kept, blank, keptText_of_flush starts]
  | some fence =>
    cases closed : fence.close? t with
    | none => simp [kept, closed]
    | some cut =>
      obtain ⟨⟨before, after⟩, starts⟩ : ((∀ c ∈ cut.before.getLast?, Text.isSpace c = false) ∧
          ∀ c ∈ cut.after.head?, Text.isSpace c = false) ∧ flush cut.after = true := by
        simpa [whole, closed, Option.all_eq_true] using h
      simp only [kept, closed]
      rw [Text.trimEnd_eq_self before, Text.trimStart_eq_self after, keptText_of_flush starts]
      exact (Fence.close?_append closed).1.symm

theorem keptLines_of_allWhole {fence : Option Fence} {lines : List Text}
    (h : allWhole fence lines = true) : keptLines fence lines = emptied fence lines := by
  induction lines generalizing fence with
  | nil => rfl
  | cons t rest ih =>
    obtain ⟨here, later⟩ := Bool.and_eq_true_iff.mp h
    rw [keptLines, emptied, kept_of_whole here, ih later]

theorem keptText_sublist (t : Text) : (keptText t).Sublist t := by
  unfold keptText
  dsimp only
  split
  · exact List.drop_sublist _ _
  · exact List.Sublist.refl t

theorem kept_sublist (fence : Option Fence) (t : Text) : (kept fence t).Sublist t := by
  unfold kept
  split
  · split
    · exact List.nil_sublist t
    · exact keptText_sublist t
  · split
    · exact List.Sublist.refl t
    next cut closed =>
      have after := (keptText_sublist (Text.trimStart cut.after)).trans (Text.trimStart_sublist _)
      conv_rhs => rw [(Fence.close?_append closed).1]
      exact (Text.trimEnd_sublist _).append ((List.Sublist.refl cut.tag).append after)

theorem size_keptLines (fence : Option Fence) (lines : List Text) :
    Text.size (keptLines fence lines) ≤ Text.size lines := by
  induction lines generalizing fence with
  | nil => exact Nat.le_refl _
  | cons t rest ih =>
    rw [keptLines, Text.size_cons, Text.size_cons]
    exact Nat.add_le_add (Text.bytes_le_of_sublist (kept_sublist fence t)) (ih _)

end Token

end DocComment
