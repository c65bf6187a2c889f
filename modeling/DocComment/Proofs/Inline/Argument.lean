import DocComment.Proofs.Inline.Address
import DocComment.Proofs.Inline.Level
import DocComment.Proofs.Text.Space

/-!
# Commands and their words

A command takes the word behind it, whatever marks the word is made of. An anchor keeps all of the
word; a reference leaves the punctuation at its end to the sentence.
-/

set_option autoImplicit false

namespace DocComment

/-! ## Punctuation -/

namespace Url

/-- A word keeps a pair of parentheses at its end. -/
theorem splitPunctuation_pair (t : Text) :
    splitPunctuation (t ++ ['(', ')']) = (t ++ ['(', ')'], []) := by
  simp [splitPunctuation, splitPunctuationRev]

theorem splitPunctuation_solid (t : Text) {c : Char} (h : isTrailing c = false) :
    splitPunctuation (t ++ [c]) = (t ++ [c], []) := by
  have reversed : (t ++ [c]).reverse = c :: t.reverse := by simp
  rw [splitPunctuation, reversed, splitPunctuationRev]
  · simp [h]
  · rintro rest rfl
    cases h

theorem splitPunctuation_trailing {t : Text} {c : Char} (h : isTrailing c = true)
    (unpaired : c = ')' → t.getLast? ≠ some '(') :
    splitPunctuation (t ++ [c]) = ((splitPunctuation t).1, (splitPunctuation t).2 ++ [c]) := by
  have reversed : (t ++ [c]).reverse = c :: t.reverse := by simp
  rw [splitPunctuation, reversed, splitPunctuationRev]
  · simp [h, splitPunctuation]
  · intro rest last open'
    apply unpaired last
    rw [← List.head?_reverse, open']
    rfl

theorem splitPunctuationRev_ne_nil {word : Text} (h : ∃ c ∈ word, isTrailing c = false) :
    (splitPunctuationRev word).2 ≠ [] := by
  fun_induction splitPunctuationRev word with
  | case1 => simp at h
  | case2 => simp
  | case3 c rest _ trailing split ih =>
    apply ih
    simpa [trailing] using h
  | case4 => simp

theorem splitPunctuation_ne_nil {word : Text} (h : ∃ c ∈ word, isTrailing c = false) :
    (splitPunctuation word).1 ≠ [] := by
  have core : (splitPunctuationRev word.reverse).2 ≠ [] :=
    splitPunctuationRev_ne_nil (by simpa using h)
  simpa [splitPunctuation] using core

end Url

/-! ## Tokens -/

namespace InlineToken

theorem lex_command {c : Char} {name rest : Text} (letter : c.isAlpha) (formula : c ≠ 'f')
    (inside : ∀ d ∈ name, Command.isNameChar d = true)
    (after : ∀ d ∈ rest.head?, Command.isNameChar d = false) :
    lex ('@' :: c :: name ++ rest) = ⟨.command, '@' :: c :: name⟩ :: lex rest := by
  show lex ('@' :: (c :: name ++ rest)) = _
  apply lex_front
  rw [shape_mark rfl, List.cons_append]
  exact afterMark_command (by simp [letter]) inside after (by simp [formula])

theorem kind_afterMark (t : Text) : (afterMark t).1.isSpace = false := by
  unfold afterMark
  split
  · rfl
  · split_ifs <;> rfl

theorem kind_afterTagStart (t : Text) : (afterTagStart t).1.isSpace = false := by
  unfold afterTagStart
  dsimp only
  split
  · rfl
  · rfl
  · split_ifs <;> rfl
  · rfl

theorem kind_afterAngle (t : Text) : (afterAngle t).1.isSpace = false := by
  unfold afterAngle
  split
  · split_ifs
    · exact kind_afterTagStart _
    · rfl
  · split_ifs
    · exact kind_afterTagStart _
    · rfl
  · rfl

/-- Only white space starts a token that separates words. -/
theorem kind_shape {c : Char} (solid : Text.isSpace c = false) (t : Text) :
    (shape c t).1.isSpace = false := by
  have blank : ¬isBlankChar c = true := by
    intro blank
    rw [isSpace_of_isBlankChar blank] at solid
    cases solid
  have feed : c ≠ '\n' := by
    rintro rfl
    cases solid
  have back : ¬(c = '\r' ∧ t.head? = some '\n') := by
    rintro ⟨rfl, -⟩
    cases solid
  rw [shape, if_neg blank, if_neg feed, if_neg back]
  split_ifs
  · exact kind_afterMark t
  · exact kind_afterAngle t
  all_goals rfl

theorem kind_of_solid {t : Text} (solid : t.Solid) :
    ∀ token ∈ lex t, token.kind.isSpace = false := by
  fun_induction lex t with
  | case1 => simp
  | case2 c t here ih =>
    obtain ⟨first, others⟩ := List.forall_mem_cons.1 solid
    exact List.forall_mem_cons.2
      ⟨kind_shape first t, ih fun d mem => others d (List.mem_of_mem_drop mem)⟩

end InlineToken

/-! ## Words -/

namespace Inline

open InlineToken (lex)

/-- The tokens of a word and of the blank before it. -/
def wordTokens (w : Text) : List Lexeme :=
  ⟨.spaces, [' '], true⟩ :: Lexeme.ofTokens false (lex w)

section

variable {w : Text} (solid : w.Solid)

include solid

theorem nextWord?_wordTokens (nonempty : w ≠ []) :
    nextWord? (wordTokens w) = some (w, (wordTokens w).length) := by
  have kinds : ∀ token ∈ Lexeme.ofTokens false (lex w), token.kind.isSpace = false :=
    fun token mem => InlineToken.kind_of_solid solid _ (Lexeme.mem_ofTokens mem)
  have joined : Lexeme.join (Lexeme.ofTokens false (lex w)) = w := by
    rw [Lexeme.join_ofTokens, InlineToken.join_lex]
  have spaces : (wordTokens w).takeWhile (·.kind.isSpace) = [⟨.spaces, [' '], true⟩] := by
    have none : (Lexeme.ofTokens false (lex w)).takeWhile (·.kind.isSpace) = [] := by
      rw [List.takeWhile_eq_nil_iff]
      intro pos
      simp [kinds _ (List.getElem_mem pos)]
    rw [wordTokens, List.takeWhile_cons_of_pos rfl, none]
  have word : (Lexeme.ofTokens false (lex w)).takeWhile (fun token => !token.kind.isSpace) =
      Lexeme.ofTokens false (lex w) := by
    rw [List.takeWhile_eq_self_iff]
    intro token mem
    simp [kinds token mem]
  have present : Lexeme.ofTokens false (lex w) ≠ [] := by
    intro none
    rw [none] at joined
    exact nonempty joined.symm
  rw [nextWord?, spaces]
  simp only [wordTokens, List.length_singleton, List.drop_one, List.tail_cons, word, joined]
  simp [present, Nat.add_comm]

/-- A command that takes the word behind it, and nothing else, is read by itself. -/
theorem parse_command {c : Char} {name : Text} (letter : c.isAlpha) (formula : c ≠ 'f')
    (inside : ∀ d ∈ name, Command.isNameChar d = true) {read : Reading}
    (known : command? (c :: name) (wordTokens w) = some read)
    (taken : read.taken = (wordTokens w).length) :
    parse ('@' :: c :: name ++ ' ' :: w) =
      trimEnds ((Output.empty.addNode read.node).write read.trailing).toNodes := by
  have first : ∀ d ∈ w.head?, InlineToken.isBlankChar d = false := by
    intro d mem
    rw [← Bool.not_eq_true]
    intro blank
    have space := InlineToken.isSpace_of_isBlankChar blank
    rw [solid d (List.mem_of_mem_head? mem)] at space
    cases space
  have lexed : lex ('@' :: c :: name ++ ' ' :: w) =
      ⟨.command, '@' :: c :: name⟩ :: ⟨.spaces, [' ']⟩ :: lex w := by
    rw [InlineToken.lex_command letter formula inside (by simp [Command.isNameChar]),
      InlineToken.lex_blank first]
  have tokens : Lexeme.ofTokens false (lex ('@' :: c :: name ++ ' ' :: w)) =
      ⟨.command, '@' :: c :: name, false⟩ :: wordTokens w := by
    rw [lexed]
    rfl
  have here : step [] .finish .empty ⟨.command, '@' :: c :: name, false⟩ (wordTokens w) =
      .proceed ((Output.empty.addNode read.node).write read.trailing) read.taken := by
    rw [step]
    dsimp only
    rw [List.drop_one, List.tail_cons, known]
  have left : (wordTokens w).drop read.taken = [] := by rw [taken, List.drop_length]
  rw [parse, tokens, readLevel_proceed here, left, readLevel_nil]

theorem parse_anchor (nonempty : w ≠ []) : parse ("@anchor ".toList ++ w) = [.anchor w] := by
  have known : command? "anchor".toList (wordTokens w) =
      some ⟨.anchor w, [], (wordTokens w).length⟩ := by
    have asked : command? "anchor".toList (wordTokens w) =
        (nextWord? (wordTokens w)).map fun next => ⟨.anchor next.1, [], next.2⟩ := rfl
    rw [asked, nextWord?_wordTokens solid nonempty]
    rfl
  have letters : ∀ d ∈ "nchor".toList, Command.isNameChar d = true := by
    simp [Command.isNameChar]
  exact parse_command solid rfl (by decide) letters known rfl

/-- The punctuation at the end of the word is left behind the reference. -/
theorem parse_reference (core : ∃ c ∈ w, Url.isTrailing c = false) :
    parse ("@ref ".toList ++ w) = .crossRef (Url.splitPunctuation w).1 none .pending ::
      if (Url.splitPunctuation w).2 = [] then [] else [.text (Url.splitPunctuation w).2] := by
  have nonempty : w ≠ [] := by
    rintro rfl
    simp at core
  have present := Url.splitPunctuation_ne_nil core
  have known : command? "ref".toList (wordTokens w) =
      some ⟨.crossRef (Url.splitPunctuation w).1 none .pending, (Url.splitPunctuation w).2,
        (wordTokens w).length⟩ := by
    have asked : command? "ref".toList (wordTokens w) =
        (argument? (wordTokens w)).map fun a => ⟨(reference a (wordTokens w)).1, a.trailing,
          a.taken + (reference a (wordTokens w)).2⟩ := rfl
    have argument : argument? (wordTokens w) =
        some ⟨(Url.splitPunctuation w).1, (Url.splitPunctuation w).2, (wordTokens w).length⟩ := by
      simp [argument?, nextWord?_wordTokens solid nonempty, present]
    rw [asked, argument]
    simp [reference, quoted?]
  have letters : ∀ d ∈ "ef".toList, Command.isNameChar d = true := by simp [Command.isNameChar]
  refine (parse_command solid rfl (by decide) letters known rfl).trans ?_
  have punctuation : Text.Solid (Url.splitPunctuation w).2 := by
    intro c mem
    apply solid
    rw [← Url.splitPunctuation_append w]
    exact List.mem_append_right _ mem
  split_ifs with nothing
  · rw [nothing]
    rfl
  · have kept := (punctuation.tight nothing).trimEnd
    simp [Output.toNodes, Output.write, Output.addNode, Output.empty, nothing, trimEnds, trimFirst,
      trimLast, mapText, kept, isEmptyText]

end

end Inline

end DocComment
