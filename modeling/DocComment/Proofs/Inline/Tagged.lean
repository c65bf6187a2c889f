import DocComment.Proofs.Inline.Phrase
import DocComment.Proofs.Inline.RoundTrip
import DocComment.Proofs.Markup.Parts

/-!
# White space between tags

Words that stand apart in a tagged text are shown apart, with one exception: no level starts with
a space, so that blanks directly behind an opening tag part nothing.
-/

set_option autoImplicit false

namespace DocComment

open InlineToken (lex)

/-! ## Prose -/

/-- Letters and white space. -/
structure Prose where
  text : Text
  plain : ∀ c ∈ text, c.isAlpha ∨ Text.isSpace c

namespace Text

/-- Whether `c` before `t` is a space or a tab or ends a line. -/
def IsBlankAt (c : Char) (t : Text) : Prop :=
  InlineToken.isBlankChar c = true ∨ c = '\n' ∨ c = '\r' ∧ t.head? = some '\n'

instance (c : Char) (t : Text) : Decidable (IsBlankAt c t) := inferInstanceAs (Decidable (_ ∨ _))

/-- Drops the spaces, the tabs and the line ends at the front of a text. -/
def dropBlanks : Text → Text
  | [] => []
  | c :: t => if IsBlankAt c t then dropBlanks t else c :: t

theorem IsBlankAt.isSpace {c : Char} {t : Text} (h : IsBlankAt c t) : isSpace c = true := by
  rcases h with blank | rfl | ⟨rfl, -⟩
  · exact InlineToken.isSpace_of_isBlankChar blank
  · rfl
  · rfl

theorem dropBlanks_dropWhile (t : Text) :
    dropBlanks (t.dropWhile InlineToken.isBlankChar) = dropBlanks t := by
  induction t with
  | nil => rfl
  | cons c t ih =>
    by_cases blank : InlineToken.isBlankChar c = true
    · rw [List.dropWhile_cons_of_pos blank, ih, dropBlanks, if_pos (.inl blank)]
    · rw [List.dropWhile_cons_of_neg blank]

theorem trimStart_dropBlanks (t : Text) : trimStart (dropBlanks t) = trimStart t := by
  induction t with
  | nil => rfl
  | cons c t ih =>
    rw [dropBlanks]
    split_ifs with blank
    · rw [ih, trimStart, trimStart, List.dropWhile_cons_of_pos blank.isSpace]
    · rfl

theorem words_dropBlanks_append (t rest : Text) :
    words (dropBlanks t ++ rest) = words (t ++ rest) := by
  rw [← words_trimStart_append, trimStart_dropBlanks, words_trimStart_append]

theorem dropBlanks_eq_self {t : Text} (h : ∀ c ∈ t.head?, isSpace c = false) :
    dropBlanks t = t := by
  cases t with
  | nil => rfl
  | cons c t =>
    rw [dropBlanks, if_neg]
    intro blank
    simpa [blank.isSpace] using h c rfl

end Text

/-! ## Tokens of prose -/

namespace InlineToken

theorem lex_return (t : Text) : lex ('\r' :: '\n' :: t) = ⟨.lineBreak, ['\r', '\n']⟩ :: lex t := by
  show lex ('\r' :: (['\n'] ++ t)) = _
  apply lex_front
  simp [shape, isBlankChar]

/-- White space that is neither a blank nor ends a line is text. -/
theorem lex_space {c : Char} (space : Text.isSpace c = true) {t : Text}
    (other : ¬Text.IsBlankAt c t) : lex (c :: t) = ⟨.text, [c]⟩ :: lex t := by
  show lex (c :: ([] ++ t)) = _
  apply lex_front
  have marks : ∀ d ∈ ['@', '\\', '<', '\x60', '*', '~', '"'], c ≠ d := by
    intro d mem
    rintro rfl
    fin_cases mem <;> cases space
  simp only [List.forall_mem_cons] at marks
  simp_all [shape, Text.IsBlankAt, Command.isMark]

/-- The token at the front of a text, and what is left behind it. At the start of a level a space is
dropped and any other token is kept. -/
inductive Leads (t : Text) : InlineToken → Text → Prop
  | space {kind : Kind} {front left : Text} (space : kind.isSpace = true) (cut : t = front ++ left)
    (nonempty : front ≠ []) (blank : ∀ c ∈ front, Text.isSpace c = true)
    (dropped : t.dropBlanks = left.dropBlanks) : Leads t ⟨kind, front⟩ left
  | text {front left : Text} (cut : t = front ++ left) (nonempty : front ≠ [])
    (kept : t.dropBlanks = t) : Leads t ⟨.text, front⟩ left

theorem Leads.shorter {t left : Text} {token : InlineToken} (leads : Leads t token left) :
    t = token.text ++ left ∧ left.length < t.length := by
  have less {front : Text} (nonempty : front ≠ []) : left.length < (front ++ left).length := by
    have := List.length_pos_iff.2 nonempty
    rw [List.length_append]
    omega
  cases leads with
  | space _ cut nonempty | text cut nonempty =>
    subst cut
    exact ⟨rfl, less nonempty⟩

/-- Whether a text starts with a token of its own before another text. -/
def Starts (t rest : Text) : Prop :=
  ∃ token left, lex (t ++ rest) = token :: lex (left ++ rest) ∧ Leads t token left

section

variable {c : Char} {rest : Text}

theorem stops_run {p : Char → Bool} (angle : p '<' = false) (code : p '\x60' = false)
    (seam : Inline.Seam rest) : ∀ d ∈ rest.head?, p d = false := by
  intro d mem
  rcases seam d mem with rfl | rfl
  · exact angle
  · exact code

theorem starts_letter (letter : c.isAlpha) (t : Text) (seam : Inline.Seam rest) :
    Starts (c :: t) rest := by
  have solid := Text.isSpace_of_isAlpha letter
  have lexed := lex_text (isTextChar_of_isAlpha letter) (t ++ rest)
  obtain ⟨run, left⟩ := Text.takeWhile_append (stops_run (p := isTextChar) rfl rfl seam) t
  rw [run, left] at lexed
  refine ⟨_, _, lexed, .text ?_ (by simp) (Text.dropBlanks_eq_self (by simpa using solid))⟩
  rw [List.cons_append, List.takeWhile_append_dropWhile]

theorem starts_blank (blank : isBlankChar c = true) (t : Text) (seam : Inline.Seam rest) :
    Starts (c :: t) rest := by
  have lexed := lex_blanks blank (t ++ rest)
  obtain ⟨run, left⟩ := Text.takeWhile_append (stops_run (p := isBlankChar) rfl rfl seam) t
  rw [run, left] at lexed
  refine ⟨_, _, lexed, .space rfl ?_ (by simp) ?_ ?_⟩
  · rw [List.cons_append, List.takeWhile_append_dropWhile]
  · intro d mem
    rcases List.mem_cons.1 mem with rfl | inside
    · exact isSpace_of_isBlankChar blank
    · exact isSpace_of_isBlankChar (List.mem_takeWhile_imp inside)
  · rw [Text.dropBlanks_dropWhile, Text.dropBlanks, if_pos (.inl blank)]

theorem starts_lineEnd {t : Text} (ends : c = '\n' ∨ c = '\r' ∧ t.head? = some '\n') :
    Starts (c :: t) rest := by
  rcases ends with rfl | ⟨rfl, next⟩
  · exact ⟨_, t, lex_lineFeed (t ++ rest), .space rfl rfl (by simp) (by simp [Text.isSpace]) rfl⟩
  · obtain ⟨t, rfl⟩ := List.head?_eq_some_iff.1 next
    exact ⟨_, t, lex_return (t ++ rest), .space rfl rfl (by simp) (by simp [Text.isSpace]) rfl⟩

theorem starts_space (space : Text.isSpace c = true) {t : Text} (other : ¬Text.IsBlankAt c t)
    (seam : Inline.Seam rest) : Starts (c :: t) rest := by
  have before : ¬Text.IsBlankAt c (t ++ rest) := by
    rintro (blank | feed | ⟨rfl, next⟩)
    · exact other (.inl blank)
    · exact other (.inr (.inl feed))
    · cases t with
      | nil => rcases seam _ next with same | same <;> cases same
      | cons d t => exact other (.inr (.inr ⟨rfl, next⟩))
  refine ⟨_, t, lex_space space before, .text rfl (by simp) ?_⟩
  rw [Text.dropBlanks, if_neg other]

theorem starts_prose {t : Text} (plain : ∀ d ∈ c :: t, d.isAlpha ∨ Text.isSpace d)
    (seam : Inline.Seam rest) : Starts (c :: t) rest := by
  by_cases letter : c.isAlpha = true
  · exact starts_letter letter t seam
  · by_cases blank : Text.IsBlankAt c t
    · rcases blank with blank | ends
      · exact starts_blank blank t seam
      · exact starts_lineEnd ends
    · exact starts_space ((plain c List.mem_cons_self).resolve_left letter) blank seam

end

end InlineToken

/-! ## What is shown -/

namespace Node

theorem plainText_text (t : Text) : (Node.text t).plainText = t := by
  simp [plainText, preorder, ownText]

theorem plainText_styled (style : Style) (body : List Node) :
    (Node.styled style body).plainText = body.flatMap plainText := by
  rw [plainText, preorder_eq, List.flatMap_cons, List.flatMap_assoc]
  rfl

end Node

namespace Inline

namespace Output

/-- The text that a level shows so far. -/
def plainText (out : Output) : Text := out.nodes.flatMap Node.plainText ++ out.text

/-- Whether nothing has been written on a level. -/
def isFresh (out : Output) : Bool := out.text.isEmpty && out.nodes.isEmpty

variable (out : Output)

theorem plainText_write (t : Text) : (out.write t).plainText = out.plainText ++ t := by
  rw [plainText, plainText, List.append_assoc]
  rfl

theorem plainText_toNodes : out.toNodes.flatMap Node.plainText = out.plainText := by
  rw [toNodes, plainText]
  split_ifs with nothing
  · rw [List.isEmpty_iff.1 nothing, List.append_nil]
  · simp [Node.plainText_text]

theorem plainText_addNode (node : Node) :
    (out.addNode node).plainText = out.plainText ++ node.plainText := by
  rw [← plainText_toNodes, toNodes_addNode, List.flatMap_append, plainText_toNodes]
  simp

theorem isFresh_write {t : Text} (nonempty : t ≠ []) : (out.write t).isFresh = false := by
  simp [isFresh, write, nonempty]

theorem isFresh_addNode (node : Node) : (out.addNode node).isFresh = false := by
  simp [isFresh, addNode]

theorem squeeze_addSpace {out : Output} (present : out.isFresh = false) :
    out.addSpace.isFresh = false ∧
      Text.squeeze out.addSpace.plainText = Text.squeeze (out.plainText ++ [' ']) := by
  have something : ¬(out.text.isEmpty && out.nodes.isEmpty) = true := by
    rw [← isFresh, present]
    simp
  rw [addSpace, if_neg something]
  split_ifs with space
  · obtain ⟨front, same⟩ := List.getLast?_eq_some_iff.1 space
    have pair : Text.squeeze [' '] = Text.squeeze ([' '] ++ [' ']) := rfl
    refine ⟨present, ?_⟩
    rw [plainText, same, ← List.append_assoc, List.append_assoc _ [' ']]
    exact Text.squeeze_append_congr rfl pair
  · rw [plainText_write]
    exact ⟨out.isFresh_write (by simp), rfl⟩

end Output

/-! ## Passing prose -/

/-- What a level shows of a text, at its start or further on. -/
def shownAt (start : Bool) (t : Text) : Text := if start then t.dropBlanks else t

theorem squeeze_after_space {out : Output} {t front left : Text} (cut : t = front ++ left)
    (nonempty : front ≠ []) (blank : ∀ c ∈ front, Text.isSpace c = true)
    (dropped : t.dropBlanks = left.dropBlanks) :
    Text.squeeze (out.addSpace.plainText ++ shownAt out.addSpace.isFresh left) =
      Text.squeeze (out.plainText ++ shownAt out.isFresh t) := by
  by_cases fresh : out.isFresh = true
  · have same : out.addSpace = out := if_pos fresh
    rw [same, fresh, shownAt, shownAt, if_pos rfl, if_pos rfl, dropped]
  · rw [Bool.not_eq_true] at fresh
    obtain ⟨written, spaced⟩ := Output.squeeze_addSpace fresh
    have single : Text.squeeze [' '] = Text.squeeze front := by
      rw [Text.squeeze_blank nonempty blank]
      rfl
    rw [written, fresh, cut]
    calc Text.squeeze (out.addSpace.plainText ++ left)
      _ = Text.squeeze (out.plainText ++ [' '] ++ left) := Text.squeeze_append_congr spaced rfl
      _ = Text.squeeze (out.plainText ++ front ++ left) :=
        Text.squeeze_append_congr (Text.squeeze_append_congr rfl single) rfl
      _ = Text.squeeze (out.plainText ++ (front ++ left)) := by rw [List.append_assoc]

variable {outer : List Closer} {closer : Closer} {rest : Text}

/-- What one token adds to what a level shows is what it takes from what is left to show. -/
theorem passes_token {t left : Text} {token : InlineToken}
    (plain : ∀ c ∈ t, c.isAlpha ∨ Text.isSpace c)
    (lexed : lex (t ++ rest) = token :: lex (left ++ rest))
    (leads : InlineToken.Leads t token left) (out : Output) :
    ∃ next, Passes outer closer (left ++ rest) out token.text next ∧
      Text.squeeze (next.plainText ++ shownAt next.isFresh left) =
        Text.squeeze (out.plainText ++ shownAt out.isFresh t) := by
  obtain ⟨same, -⟩ := leads.shorter
  rw [same, List.append_assoc] at lexed
  cases leads with
  | space space cut nonempty blank dropped =>
    refine ⟨out.addSpace, Passes.token lexed fun glued tokens => ?_,
      squeeze_after_space cut nonempty blank dropped⟩
    exact step_space space
  | @text front _ cut nonempty kept =>
    have absent {c : Char} (letter : c.isAlpha = false) (solid : Text.isSpace c = false) :
        c ∉ front := by
      intro mem
      have := plain c (by simp [cut, mem])
      simp [letter, solid] at this
    refine ⟨out.write front, Passes.token lexed fun glued tokens => ?_, ?_⟩
    · exact congrArg (Step.proceed · 0) (addText_plain out (absent rfl rfl) (absent rfl rfl))
    · have whole : shownAt out.isFresh t = t := by simp [shownAt, kept]
      rw [Output.isFresh_write out nonempty, Output.plainText_write, whole, cut, List.append_assoc]
      rfl

/-- Prose is passed token by token. -/
theorem passes_prose {t : Text} (plain : ∀ c ∈ t, c.isAlpha ∨ Text.isSpace c) (seam : Seam rest)
    (out : Output) : ∃ next, Passes outer closer rest out t next ∧
      Text.squeeze next.plainText = Text.squeeze (out.plainText ++ shownAt out.isFresh t) := by
  induction size : t.length using Nat.strongRecOn generalizing t out with
  | _ _ ih =>
    subst size
    cases t with
    | nil => exact ⟨out, .nil, by simp [shownAt, Text.dropBlanks]⟩
    | cons c t =>
      obtain ⟨token, left, lexed, leads⟩ := InlineToken.starts_prose plain seam
      obtain ⟨cut, smaller⟩ := leads.shorter
      obtain ⟨between, first, here⟩ := passes_token plain lexed leads out
      have others : ∀ d ∈ left, d.isAlpha ∨ Text.isSpace d := by
        intro d mem
        exact plain d (cut ▸ List.mem_append_right _ mem)
      obtain ⟨next, passes, later⟩ := ih _ smaller others between rfl
      refine ⟨next, ?_, later.trans here⟩
      rw [cut]
      exact first.append passes

/-! ## Tagged text -/

/-- Prose and spans, which stand between the tags of a style. -/
inductive TaggedText where
  | prose (t : Prose)
  | span (front : Prose) (style : Style) (body rest : TaggedText)

namespace TaggedText

def write : TaggedText → Text
  | prose t => t.text
  | span front style body rest =>
    front.text ++ ((Tag.opens style.tagName).write ++ body.write ++
      (Tag.ends style.tagName).write ++ rest.write)

/-- The text without its tags. -/
def bare : TaggedText → Text
  | prose t => t.text
  | span front _ body rest => front.text ++ (body.bare ++ rest.bare)

/-- The text without its tags and without the blanks behind opening ones; the flag says whether it
stands behind one itself. -/
def shown : Bool → TaggedText → Text
  | behind, prose t => shownAt behind t.text
  | behind, span front _ body rest =>
    shownAt behind front.text ++ (body.shown true ++ rest.shown false)

def front : TaggedText → Prose
  | prose t => t
  | span front _ _ _ => front

/-- Whether no white space stands behind an opening tag. -/
def Close : TaggedText → Prop
  | prose _ => True
  | span _ _ body rest =>
    (∀ c ∈ body.front.text.head?, Text.isSpace c = false) ∧ body.Close ∧ rest.Close

theorem shown_of_close {m : TaggedText} (close : m.Close) {start : Bool}
    (apart : start = true → ∀ c ∈ m.front.text.head?, Text.isSpace c = false) :
    m.shown start = m.bare := by
  have kept : shownAt start m.front.text = m.front.text := by
    cases start with
    | false => rfl
    | true => exact Text.dropBlanks_eq_self (apart rfl)
  induction m generalizing start with
  | prose t => exact kept
  | span front style body rest ihBody ihRest =>
    obtain ⟨inside, closeBody, closeRest⟩ := close
    have shownBody : body.shown true = body.bare :=
      ihBody closeBody (fun _ => inside) (Text.dropBlanks_eq_self inside)
    have shownRest : rest.shown false = rest.bare := ihRest closeRest (by simp) rfl
    rw [shown, bare, shownBody, shownRest]
    exact congrArg (· ++ _) kept

/-- A tagged text is passed span by span. -/
theorem passes_tagged (m : TaggedText) (seam : Seam rest) (out : Output) :
    ∃ next, Passes outer closer rest out m.write next ∧
      Text.squeeze next.plainText = Text.squeeze (out.plainText ++ m.shown out.isFresh) := by
  -- the contents of a span start a level of their own; the text behind it never does
  induction m generalizing outer closer rest out with
  | prose t => exact passes_prose t.plain seam out
  | span front style body later ihBody ihLater =>
    have opening : Seam ((Tag.opens style.tagName).write ++ body.write ++
        (Tag.ends style.tagName).write ++ later.write ++ rest) := by
      simpa using seam_tag (Tag.opens style.tagName) _
    obtain ⟨before, first, shownFront⟩ := passes_prose front.plain opening out
    obtain ⟨inner, inside, shownBody⟩ :=
      ihBody (seam_tag (Tag.ends style.tagName) (later.write ++ rest)) .empty
    obtain ⟨next, last, shownLater⟩ := ihLater seam (before.addNode (.styled style inner.toNodes))
    refine ⟨next, first.append ((passes_styled style inside).append last), ?_⟩
    rw [Output.isFresh_addNode, Output.plainText_addNode, Node.plainText_styled,
      Output.plainText_toNodes] at shownLater
    rw [shownLater, shown, ← List.append_assoc, ← List.append_assoc]
    exact Text.squeeze_append_congr (Text.squeeze_append_congr shownFront shownBody) rfl

/-- At the start of a text, blanks part nothing either way. -/
theorem words_shown (m : TaggedText) : Text.words (m.shown true) = Text.words (m.shown false) := by
  cases m with
  | prose t =>
    have same := Text.words_dropBlanks_append t.text []
    rwa [List.append_nil, List.append_nil] at same
  | span front style body rest => exact Text.words_dropBlanks_append front.text _

end TaggedText

/-! ## Whole texts -/

theorem words_trimFirst (nodes : List Node) (rest : Text) :
    Text.words ((trimFirst nodes).flatMap Node.plainText ++ rest) =
      Text.words (nodes.flatMap Node.plainText ++ rest) := by
  cases nodes with
  | nil => rfl
  | cons node nodes =>
    cases node with
    | text t =>
      simp only [trimFirst, mapText, List.flatMap_cons, Node.plainText_text, List.append_assoc]
      exact Text.words_trimStart_append t _
    | _ => rfl

theorem words_trimLast (nodes : List Node) :
    Text.words ((trimLast nodes).flatMap Node.plainText) =
      Text.words (nodes.flatMap Node.plainText) := by
  rcases List.eq_nil_or_concat' nodes with rfl | ⟨front, node, rfl⟩
  · rfl
  · rw [trimLast_concat]
    cases node with
    | text t =>
      simp only [mapText, List.flatMap_append, List.flatMap_singleton, Node.plainText_text]
      exact Text.words_append_trimEnd _ t
    | _ => rfl

theorem plainText_filter (nodes : List Node) :
    (nodes.filter fun node => !isEmptyText node).flatMap Node.plainText =
      nodes.flatMap Node.plainText := by
  induction nodes with
  | nil => rfl
  | cons node rest ih =>
    rw [List.filter_cons]
    split_ifs with kept
    · rw [List.flatMap_cons, List.flatMap_cons, ih]
    · have empty : node.plainText = [] := by
        unfold isEmptyText at kept
        split at kept
        · rfl
        · cases kept rfl
      rw [ih, List.flatMap_cons, empty, List.nil_append]

theorem words_trimEnds (nodes : List Node) :
    Text.words ((trimEnds nodes).flatMap Node.plainText) =
      Text.words (nodes.flatMap Node.plainText) := by
  have first := words_trimFirst nodes []
  rw [List.append_nil, List.append_nil] at first
  rw [trimEnds, plainText_filter, words_trimLast, first]

/-- A tagged text shows the words that it has without its tags, but that blanks behind opening tags
do not part what stands before and behind them. -/
theorem words_tagged (m : TaggedText) :
    Text.words ((parse m.write).flatMap Node.plainText) = Text.words (m.shown false) ∧
      (m.Close →
        Text.words ((parse m.write).flatMap Node.plainText) = Text.words m.bare) := by
  have ends : Seam [] := by simp [Seam]
  obtain ⟨next, passes, shows⟩ := m.passes_tagged ends .empty
  have words :
      Text.words ((parse m.write).flatMap Node.plainText) = Text.words (m.shown false) := by
    rw [parse_of_passes passes, words_trimEnds, Output.plainText_toNodes,
      Text.words_eq_of_squeeze shows, ← m.words_shown]
    rfl
  refine ⟨words, fun close => ?_⟩
  rw [words, TaggedText.shown_of_close close (by simp)]

/-- Four words, parted in front of a tag, behind a closing one and inside a span. -/
def spacedSpans : TaggedText :=
  .span ⟨['a', ' '], by simp [Text.isSpace]⟩ .underline
    (.prose ⟨['b', '\r', '\n'], by simp [Text.isSpace]⟩)
    (.span ⟨[], by simp⟩ .subscript (.prose ⟨['c'], by simp⟩)
      (.prose ⟨['\t', 'd'], by simp [Text.isSpace]⟩))

theorem spacedSpans_words : spacedSpans.Close ∧
    Text.words ((parse spacedSpans.write).flatMap Node.plainText) =
      [['a'], ['b'], ['c'], ['d']] := by
  have close : spacedSpans.Close :=
    ⟨by simp [TaggedText.front, Text.isSpace], trivial,
      by simp [TaggedText.front, Text.isSpace], trivial, trivial⟩
  exact ⟨close, ((words_tagged spacedSpans).2 close).trans (by decide)⟩

/-- A blank that stands directly behind an opening tag. -/
def innerBlank : TaggedText :=
  .span ⟨['a'], by simp⟩ .underline (.prose ⟨[' ', 'b'], by simp [Text.isSpace]⟩)
    (.prose ⟨[], by simp⟩)

/-- The two words of `a<u> b</u>` are shown as one. -/
theorem innerBlank_joins : innerBlank.write = "a<u> b</u>".toList ∧
    Text.words innerBlank.bare = [['a'], ['b']] ∧
    Text.words ((parse innerBlank.write).flatMap Node.plainText) = [['a', 'b']] := by
  refine ⟨rfl, by decide, ?_⟩
  decide +kernel

end Inline

end DocComment
