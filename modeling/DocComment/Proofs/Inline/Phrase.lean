import DocComment.Proofs.Inline.Address
import DocComment.Proofs.Inline.Level
import DocComment.Proofs.Text.Space
import Mathlib.Data.List.Basic

/-!
# Phrases

A phrase is words of letters with single spaces between them, and a passage is phrases on
lines of their own. No mark starts anything in them, so that they are read as the text that they
are; where a passage goes on on the next line, the line feed is read as a space.
-/

set_option autoImplicit false

namespace DocComment

/-! ## Letters -/

namespace Text

theorem isControl_of_isAlpha {c : Char} (h : c.isAlpha) : isControl c = false := by
  have := isAlpha_range h
  simp only [isControl, Bool.or_eq_false_iff, Bool.and_eq_false_iff, decide_eq_false_iff_not]
  omega

theorem isMark_of_isAlpha {c : Char} (h : c.isAlpha) : Command.isMark c = false := by
  simp [Command.isMark, ne_of_isAlpha h]

end Text

/-! ## Words -/

/-- Some ASCII letters. -/
structure Word where
  text : Text
  nonempty : text ≠ []
  letters : ∀ c ∈ text, c.isAlpha

namespace Word

theorem head (w : Word) : ∃ c rest, w.text = c :: rest ∧ c.isAlpha := by
  obtain ⟨c, rest, h⟩ := List.exists_cons_of_ne_nil w.nonempty
  exact ⟨c, rest, h, w.letters c (h ▸ List.mem_cons_self)⟩

theorem last (w : Word) : ∃ front c, w.text = front ++ [c] ∧ c.isAlpha := by
  obtain ⟨front, c, h⟩ := (List.eq_nil_or_concat' w.text).resolve_left w.nonempty
  exact ⟨front, c, h, w.letters c (by simp [h])⟩

theorem tight (w : Word) : w.text.Tight := by
  obtain ⟨c, rest, hw, hc⟩ := w.head
  obtain ⟨front, d, hw', hd⟩ := w.last
  exact ⟨⟨c, rest, hw, Text.isSpace_of_isAlpha hc⟩, front, d, hw', Text.isSpace_of_isAlpha hd⟩

end Word

/-- Words, each behind a separator. -/
abbrev Tail := List (Char × Word)

namespace Tail

def text (tail : Tail) : Text := tail.flatMap fun piece => piece.1 :: piece.2.text

/-- The same words behind single spaces. -/
def spaced (tail : Tail) : Tail := tail.map fun piece => (' ', piece.2)

/-- Whether every separator is a space or a line feed. -/
def Separated (tail : Tail) : Prop := ∀ piece ∈ tail, piece.1 = ' ' ∨ piece.1 = '\n'

end Tail

/-- What words make longer still has a letter at its end. -/
theorem Text.Tight.append_tail {acc : Text} (tight : acc.Tight) (tail : Tail) :
    Text.Tight (acc ++ tail.text) := by
  induction tail generalizing acc with
  | nil => simpa [Tail.text] using tight
  | cons piece tail ih =>
    obtain ⟨sep, w⟩ := piece
    have longer : Text.Tight (acc ++ sep :: w.text) := by
      obtain ⟨⟨c, rest, rfl, hc⟩, -⟩ := tight
      obtain ⟨-, front, d, hw, hd⟩ := w.tight
      exact ⟨⟨c, rest ++ sep :: w.text, rfl, hc⟩, c :: rest ++ sep :: front, d, by simp [hw], hd⟩
    simpa [Tail.text] using ih longer

/-! ## Tokens -/

namespace InlineToken

theorem isTextChar_of_isAlpha {c : Char} (h : c.isAlpha) : isTextChar c = true := by
  simp [isTextChar, Text.isSpace_of_isAlpha h, Text.ne_of_isAlpha h]

theorem lex_word (w : Word) {t : Text} (ht : ∀ c ∈ t.head?, isTextChar c = false) :
    lex (w.text ++ t) = ⟨.text, w.text⟩ :: lex t := by
  obtain ⟨c, rest, hw, hc⟩ := w.head
  rw [hw, List.cons_append]
  apply lex_run (isTextChar_of_isAlpha hc) _ ht
  intro d hd
  exact isTextChar_of_isAlpha (w.letters d (by simp [hw, hd]))

/-- The token of a separator. -/
def ofSeparator (c : Char) : InlineToken := ⟨if c = '\n' then .lineBreak else .spaces, [c]⟩

theorem lex_tail (first : Word) {tail : Tail} (separated : tail.Separated) :
    lex (first.text ++ tail.text) =
      ⟨.text, first.text⟩ :: tail.flatMap fun piece =>
        [ofSeparator piece.1, ⟨.text, piece.2.text⟩] := by
  induction tail generalizing first with
  | nil =>
    rw [Tail.text, List.flatMap_nil, lex_word first (by simp), lex]
    rfl
  | cons piece tail ih =>
    obtain ⟨sep, w⟩ := piece
    obtain ⟨here, later⟩ := List.forall_mem_cons.1 separated
    obtain ⟨c, rest, hw, hc⟩ := w.head
    have front : Tail.text ((sep, w) :: tail) = sep :: (w.text ++ Tail.text tail) := by
      simp [Tail.text]
    have inText : isTextChar sep = false := by obtain rfl | rfl := here <;> decide
    rw [front, lex_word first (by simpa using inText), List.flatMap_cons]
    obtain rfl | rfl := here
    · have blank : isBlankChar c = false := by simp [isBlankChar, Text.ne_of_isAlpha hc]
      rw [lex_blank (by simpa [hw] using blank), ih w later]
      rfl
    · rw [lex_lineFeed, ih w later]
      rfl

end InlineToken

/-! ## Nodes -/

namespace Inline

theorem addText_word (out : Output) (w : Word) : addText out w.text = out.write w.text := by
  have absent {c : Char} (hc : c.isAlpha = false) : c ∉ w.text :=
    fun mem => Text.ne_of_isAlpha (w.letters c mem) hc rfl
  exact addText_plain out (absent rfl) (absent rfl)

theorem readLevel_word {outer : List Closer} {closer : Closer} {out : Output} (w : Word)
    (glued : Bool) (rest : List InlineToken) :
    (readLevel outer closer out (Lexeme.ofTokens glued (⟨.text, w.text⟩ :: rest))).1 =
      (readLevel outer closer (out.write w.text) (Lexeme.ofTokens true rest)).1 :=
  readLevel_alone (congrArg (Step.proceed · 0) (addText_word out w))

theorem readLevel_separator {outer : List Closer} {closer : Closer} {acc : Text} {c : Char}
    (tight : acc.Tight) (glued : Bool) (rest : List InlineToken) :
    (readLevel outer closer ⟨[], acc⟩
        (Lexeme.ofTokens glued (InlineToken.ofSeparator c :: rest))).1 =
      (readLevel outer closer ⟨[], acc ++ [' ']⟩ (Lexeme.ofTokens false rest)).1 := by
  have kind : (InlineToken.ofSeparator c).kind = .lineBreak ∨
      (InlineToken.ofSeparator c).kind = .spaces := by
    unfold InlineToken.ofSeparator
    split
    · exact .inl rfl
    · exact .inr rfl
  have space : (InlineToken.ofSeparator c).kind.isSpace = true := by
    obtain h | h := kind <;> rw [h] <;> rfl
  have added : (⟨[], acc⟩ : Output).addSpace = ⟨[], acc ++ [' ']⟩ := by
    obtain ⟨-, front, d, rfl, hd⟩ := tight
    have : d ≠ ' ' := by rintro rfl; cases hd
    simp [Output.addSpace, Output.write, this]
  rw [Lexeme.ofTokens, space]
  refine readLevel_alone ?_
  rw [← added]
  obtain h | h := kind <;> simp [step, h]

/-- A level that holds text alone goes on with a passage. -/
theorem readLevel_tail {acc : Text} (tight : acc.Tight) (tail : Tail) :
    (readLevel [] .finish ⟨[], acc⟩ (Lexeme.ofTokens true (tail.flatMap fun piece =>
      [InlineToken.ofSeparator piece.1, ⟨.text, piece.2.text⟩]))).1.nodes =
        [.text (acc ++ tail.spaced.text)] := by
  induction tail generalizing acc with
  | nil =>
    obtain ⟨⟨c, rest, rfl, -⟩, -⟩ := tight
    rw [List.flatMap_nil, Lexeme.ofTokens, readLevel_nil]
    simp [Output.toNodes, Tail.spaced, Tail.text]
  | cons piece tail ih =>
    obtain ⟨sep, w⟩ := piece
    rw [List.flatMap_cons, List.cons_append, List.cons_append, List.nil_append,
      readLevel_separator tight, readLevel_word]
    have longer : Text.Tight (acc ++ [' '] ++ w.text) := by
      simpa [Tail.text] using tight.append_tail [(' ', w)]
    refine (ih longer).trans ?_
    simp [Tail.spaced, Tail.text]

/-- Text between two texts that start and end with letters is kept as it is. -/
theorem trimEnds_text {t : Text} (tight : t.Tight) : trimEnds [.text t] = [.text t] := by
  have empty : isEmptyText (.text t) = false := by
    obtain ⟨⟨c, rest, rfl, -⟩, -⟩ := tight
    rfl
  simp [trimEnds, trimFirst, trimLast, mapText, tight.trimStart, tight.trimEnd, empty]

theorem parse_tail (first : Word) {tail : Tail} (separated : tail.Separated) :
    parse (first.text ++ tail.text) = [.text (first.text ++ tail.spaced.text)] := by
  have tight := first.tight
  have text : Output.write .empty first.text = ⟨[], first.text⟩ := rfl
  rw [parse, InlineToken.lex_tail first separated, readLevel_word, text, readLevel_tail tight]
  exact trimEnds_text (tight.append_tail tail.spaced)

end Inline

/-! ## Phrases and passages -/

/-- Words with single spaces between them. -/
structure Phrase where
  first : Word
  rest : List Word

namespace Phrase

def tail (p : Phrase) : Tail := p.rest.map fun w => (' ', w)

def text (p : Phrase) : Text := p.first.text ++ p.tail.text

theorem tight (p : Phrase) : p.text.Tight := p.first.tight.append_tail p.tail

theorem isEmpty_text (p : Phrase) : p.text.isEmpty = false := by
  obtain ⟨⟨c, rest, same, -⟩, -⟩ := p.tight
  rw [same]
  rfl

theorem parse_text (p : Phrase) : Inline.parse p.text = [.text p.text] := by
  have spaces : p.tail.Separated := by simp [Tail.Separated, tail]
  have spaced : p.tail.spaced = p.tail := by simp [Tail.spaced, tail]
  rw [text, Inline.parse_tail p.first spaces, spaced]

theorem parse_line (p : Phrase) : Inline.parse (Text.unlines [p.text]) = [.text p.text] := by
  rw [Text.unlines, List.intercalate_singleton, p.parse_text]

theorem chars (p : Phrase) : ∀ c ∈ p.text, c.isAlpha ∨ c = ' ' := by
  intro c hc
  simp only [text, tail, Tail.text, List.flatMap_map, List.mem_append, List.mem_flatMap,
    List.mem_cons] at hc
  obtain hc | ⟨w, -, hc | hc⟩ := hc
  · exact .inl (p.first.letters c hc)
  · exact .inr hc
  · exact .inl (w.letters c hc)

end Phrase

/-- Phrases on lines of their own. -/
structure Passage where
  first : Phrase
  rest : List Phrase

namespace Passage

def lines (p : Passage) : List Text := (p.first :: p.rest).map Phrase.text

/-- The phrases on one line. -/
def text (p : Passage) : Text := [' '].intercalate p.lines

/-- The words after the first. -/
def tail (sep : Char) (p : Passage) : Tail :=
  p.first.tail ++ p.rest.flatMap fun q => (sep, q.first) :: q.tail

theorem intercalate_lines (sep : Char) (p : Passage) :
    [sep].intercalate p.lines = p.first.first.text ++ (p.tail sep).text := by
  obtain ⟨first, rest⟩ := p
  induction rest generalizing first with
  | nil => simp [lines, tail, Phrase.text]
  | cons q rest ih =>
    have joined := ih q
    rw [lines, List.map_cons] at joined
    rw [lines, List.map_cons, List.map_cons, List.intercalate_cons_cons, joined]
    simp [tail, Phrase.text, Tail.text]

theorem parse_lines (p : Passage) : Inline.parse (Text.unlines p.lines) = [.text p.text] := by
  have separated : (p.tail '\n').Separated := by
    intro piece mem
    simp only [tail, Phrase.tail, List.mem_append, List.mem_map, List.mem_flatMap,
      List.mem_cons] at mem
    obtain ⟨w, -, rfl⟩ | ⟨q, -, rfl | ⟨w, -, rfl⟩⟩ := mem
    · exact .inl rfl
    · exact .inr rfl
    · exact .inl rfl
  have spaced : (p.tail '\n').spaced = p.tail ' ' := by
    simp [Tail.spaced, tail, Phrase.tail, List.map_flatMap, Function.comp_def]
  rw [Text.unlines, intercalate_lines, Inline.parse_tail p.first.first separated, spaced, text,
    intercalate_lines]

end Passage

end DocComment
