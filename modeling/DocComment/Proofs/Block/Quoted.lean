import DocComment.Proofs.Block.Certain
import DocComment.Proofs.Block.Collected
import DocComment.Proofs.Block.RoundTrip
import DocComment.Proofs.Line.Uncut

/-!
# Documents in quotes

A line is cut before it is read, and what stands behind a cut is outside the quote that the line
starts. So a document that is quoted line by line is one quote, with the document inside, exactly if
none of its lines is cut. A line that is cut leaves something behind the quote, whatever comes after
it.
-/

set_option autoImplicit false

namespace DocComment

/-! ## Lines behind a quote mark -/

namespace Segments

/-- A quote mark moves no cut. -/
theorem ofLine_quoted (t : Text) :
    ofLine (PlainLine.quoted t) = { ofLine t with text := PlainLine.quoted (ofLine t).text } := rfl

/-- A command starts with its mark. -/
theorem mark_of_mem {t : Text} {wordStart inCode : Bool} {command : CommandText}
    (mem : command ∈ (cut wordStart inCode t).commands) :
    ∃ mark rest, command.raw = mark :: rest ∧ Command.isMark mark = true := by
  induction t generalizing wordStart inCode with
  | nil => simp [cut, nil] at mem
  | cons c t ih =>
    rw [cut] at mem
    split at mem
    · simp at mem
    next name fence found =>
      obtain rfl | later := List.mem_cons.mp mem
      · refine ⟨c, _, rfl, ?_⟩
        by_contra noMark
        simp [noMark] at found
      · exact ih later
    · exact ih mem

theorem mark_of_commands {t : Text} {command : CommandText} {rest : List CommandText}
    (commands : (ofLine t).commands = command :: rest) :
    ∃ mark more, command.raw = mark :: more ∧ Command.isMark mark = true := by
  have mem : command ∈ (ofLine t).commands := by simp [commands]
  exact mark_of_mem mem

end Segments

theorem Text.Uncut.quoted {t : Text} (uncut : t.Uncut) : (PlainLine.quoted t).Uncut := by
  have cut : Segments.ofLine t = ⟨t, [], none⟩ := uncut
  rw [Text.Uncut, Segments.ofLine_quoted, cut]

namespace Token

theorem plain_quoted (line : Nat) (t : Text) :
    plain line (PlainLine.quoted t) = ⟨line, .quote 0 t, PlainLine.quoted t⟩ := rfl

/-- Whether a token stands behind a cut: it starts with a command mark or opens a fence. -/
inductive IsCut (token : Token) : Prop
  | command {mark : Char} {rest : Text} (column : Nat) (command : CommandText)
      (kind : token.kind = .ofCommand column command) (raw : token.raw = mark :: rest)
      (isMark : Command.isMark mark = true)
  | fence (fence : Fence) (arg : Option Text) (kind : token.kind = .fenceOpen fence arg)

/-- What a line holds behind its first text. -/
theorem scan_cut {t : Text} (cut : ¬ t.Uncut) (line : Nat) :
    ∃ next others, (scan line none t).1 = ofText line (Segments.ofLine t).text ++ next :: others ∧
      next.IsCut := by
  cases opened : (Segments.ofLine t).opener with
  | none =>
    cases commands : (Segments.ofLine t).commands with
    | nil => exact absurd (Segments.uncut_of_whole commands opened) cut
    | cons command rest =>
      obtain ⟨mark, text, raw, isMark⟩ := Segments.mark_of_commands commands
      rw [scan_unopened opened, beforeOpener, commands]
      exact ⟨_, _, rfl, .command _ command rfl raw isMark⟩
  | some opener =>
    obtain ⟨fence, raw⟩ := opener
    have start : (fenceStart line fence raw).1.IsCut := .fence fence _ rfl
    rw [scan_opened opened, beforeOpener]
    cases commands : (Segments.ofLine t).commands with
    | nil =>
      rw [ofCommands, List.append_nil]
      dsimp only
      split
      · exact ⟨_, _, rfl, start⟩
      · exact ⟨_, _, rfl, start⟩
    | cons command rest =>
      obtain ⟨mark, text, raw, isMark⟩ := Segments.mark_of_commands commands
      rw [ofCommands]
      dsimp only
      split
      · exact ⟨_, _, by rw [List.append_assoc]; rfl, .command _ command rfl raw isMark⟩
      · exact ⟨_, _, by rw [List.append_assoc]; rfl, .command _ command rfl raw isMark⟩

theorem ofLine_quoted_cut {t : Text} (cut : ¬ t.Uncut) (line : Nat) :
    ∃ next others, (ofLine line none (PlainLine.quoted t)).1 =
      plain line (PlainLine.quoted (Segments.ofLine t).text) :: next :: others ∧ next.IsCut := by
  have still : ¬ (PlainLine.quoted t).Uncut := by
    intro whole
    have parts : Segments.ofLine (PlainLine.quoted t) = ⟨PlainLine.quoted t, [], none⟩ := whole
    rw [Segments.ofLine_quoted, Segments.mk.injEq] at parts
    exact cut (Segments.uncut_of_whole parts.2.1 parts.2.2)
  obtain ⟨next, others, tokens, behind⟩ := scan_cut still line
  exact ⟨next, others, tokens, behind⟩

end Token

/-! ## What a quote takes up -/

namespace BlockReader

variable (options : Options)

theorem foldl_quotes (closed : List Item) (start : Nat) (before : List Text)
    {tokens : List Token} {texts : List Text}
    (quotes : tokens.map Token.kind = texts.map (.quote 0)) :
    tokens.foldl (feed options) ⟨some (.quote start before), closed⟩ =
      ⟨some (.quote start (before ++ texts)), closed⟩ := by
  induction tokens generalizing before texts with
  | nil =>
    obtain rfl : texts = [] := by simpa using quotes.symm
    simp
  | cons token rest ih =>
    obtain ⟨t, later, rfl⟩ : ∃ t later, texts = t :: later :=
      List.exists_cons_of_ne_nil (by rintro rfl; simp at quotes)
    obtain ⟨kind, others⟩ := List.cons.inj quotes
    have fed : feed options ⟨some (.quote start before), closed⟩ token =
        ⟨some (.quote start (before ++ [t])), closed⟩ := by
      simp [feed, outside, kind, extend]
    rw [List.foldl_cons, fed, ih _ others]
    simp

/-- Quoted lines from the start are one quote. -/
theorem foldl_quotes_empty {tokens : List Token} {t : Text} {texts : List Text}
    (quotes : tokens.map Token.kind = (t :: texts).map (.quote 0))
    (first : ∀ token ∈ tokens.head?, token.line = 0) :
    tokens.foldl (feed options) .empty = ⟨some (.quote 0 (t :: texts)), []⟩ := by
  obtain ⟨token, rest, rfl⟩ : ∃ token rest, tokens = token :: rest :=
    List.exists_cons_of_ne_nil (by rintro rfl; simp at quotes)
  obtain ⟨kind, others⟩ := List.cons.inj quotes
  have fed : feed options .empty token = ⟨some (.quote 0 [t]), []⟩ := by
    simp [feed, outside, empty, kind, begin, close, first token rfl]
  rw [List.foldl_cons, fed, foldl_quotes options [] 0 [t] others]
  rfl

end BlockReader

/-! ## What stands behind a quote -/

section

variable {mark : Char} (isMark : Command.isMark mark = true) (rest : Text)

include isMark

theorem Text.isSpace_of_isMark : Text.isSpace mark = false := by
  simp only [Command.isMark, Bool.or_eq_true, beq_iff_eq] at isMark
  obtain rfl | rfl := isMark <;> decide

/-- A mark stays at the front of what it is in front of. -/
theorem Text.trim_mark : Text.trim (mark :: rest) = mark :: Text.trimEnd rest := by
  have space := Text.isSpace_of_isMark isMark
  rw [Text.trim, Text.trimStart_eq_self (by simpa using space)]
  exact Text.trimEnd_append (a := [mark]) fun _ => by simpa using space

theorem DefinitionTag.startsList_mark : startsList (mark :: rest) = false := by
  have tag : openList = ['<', 'd', 'l', '>'] := rfl
  rw [startsList, Text.trimStart_eq_self (by simpa using Text.isSpace_of_isMark isMark), tag]
  simp only [Command.isMark, Bool.or_eq_true, beq_iff_eq] at isMark
  obtain rfl | rfl := isMark <;> rfl

end

namespace BlockReader

variable (options : Options)

/-- What stands behind a cut is no part of the quote before it. -/
theorem certain_feed_cut {token : Token} (cut : token.IsCut) (start : Nat) (lines : List Text) :
    2 ≤ (feed options ⟨some (.quote start lines), []⟩ token).certain := by
  have begun {block : OpenBlock} (certain : block.isCertain = true) :
      2 ≤ (begin ⟨some (.quote start lines), []⟩ block).certain :=
    certain_begin_succ ⟨some (.quote start lines), []⟩ certain
  cases cut with
  | fence fence arg kind =>
    simp only [feed, outside, kind]
    exact begun rfl
  | @command mark rest column command kind raw isMark =>
    have trimmed : Text.trim token.raw = mark :: Text.trimEnd rest := by
      rw [raw, Text.trim_mark isMark]
    have text (indent : Nat) : 2 ≤ (plainLine options ⟨some (.quote start lines), []⟩ indent
        (Text.trim token.raw) token.raw token.line).certain := by
      simp only [plainLine, trimmed, DefinitionTag.startsList_mark isMark]
      split
      · exact begun rfl
      · exact begun isMark
    unfold Token.Kind.ofCommand at kind
    split at kind
    · simp only [feed, outside, kind, itemLine]
      split
      · exact text _
      · exact begun rfl
    · simp only [feed, outside, kind]
      split
      · exact Nat.le_refl 2
      · exact text 0

/-- Lines that are quoted show something behind the quote as soon as one of them is cut. -/
theorem certain_quotedLines {r : BlockReader}
    (quote : r = .empty ∨ ∃ start texts, r = ⟨some (.quote start texts), []⟩) {lines : List Text}
    {t : Text} (mem : t ∈ lines) (cut : ¬ t.Uncut) (line : Nat) :
    2 ≤ ((Token.ofLines line none (lines.map PlainLine.quoted)).foldl
      (feed options) r).certain := by
  induction lines generalizing r line with
  | nil => cases mem
  | cons first rest ih =>
    have goes (u : Text) : ∃ start texts, feed options r (Token.plain line (PlainLine.quoted u)) =
        ⟨some (.quote start texts), []⟩ := by
      obtain rfl | ⟨start, texts, rfl⟩ := quote
      · exact ⟨_, _, rfl⟩
      · exact ⟨_, _, rfl⟩
    rw [List.map_cons, Token.ofLines]
    by_cases whole : first.Uncut
    · obtain rfl | later := List.mem_cons.mp mem
      · exact absurd whole cut
      rw [Token.ofLine_uncut whole.quoted]
      exact ih (.inr (goes first)) later (line + 1)
    · obtain ⟨next, others, tokens, behind⟩ := Token.ofLine_quoted_cut whole line
      obtain ⟨start, texts, fed⟩ := goes (Segments.ofLine first).text
      rw [tokens, List.cons_append, List.foldl_cons, fed, List.cons_append, List.foldl_cons]
      exact (certain_feed_cut options behind start texts).trans (certain_foldl _ _ _)

end BlockReader

/-! ## Whole documents -/

theorem tokenize_quoted {lines : List Text} (clean : ∃ tokens, tokenize lines = .ok tokens) :
    tokenize (lines.map PlainLine.quoted) =
      .ok (Token.ofLines 0 none (lines.map PlainLine.quoted)) := by
  obtain ⟨tokens, read⟩ := clean
  obtain ⟨e, error⟩ | ⟨-, clean⟩ := tokenize_cases lines
  · rw [error] at read
    cases read
  · rw [tokenize, ControlCharacter.find?_eq_none_iff.mpr]
    intro t mem c
    obtain ⟨t, known, rfl⟩ := List.mem_map.mp mem
    rw [PlainLine.quoted, List.mem_cons, List.mem_cons]
    rintro (rfl | rfl | inside) control
    · cases control
    · cases control
    · exact clean t known c inside control

namespace Blocks

variable (options : Options) {lines : List Text}

/-- Lines in one piece are quoted as they are. -/
theorem parseWithin_quoted (levels : Nat) (nonempty : lines ≠ [])
    (clean : ∃ tokens, tokenize lines = .ok tokens) (uncut : ∀ t ∈ lines, t.Uncut) :
    parseWithin options (levels + 1) (lines.map PlainLine.quoted) =
      (parseWithin options levels lines).map fun body =>
        ⟨[.blockQuote body.nodes], body.diagnostics⟩ := by
  have tokens : Token.ofLines 0 none (lines.map PlainLine.quoted) =
      (lines.map PlainLine.quoted).mapIdx Token.plain := by
    rw [Token.ofLines_uncut (by simpa using fun t mem => (uncut t mem).quoted)]
    simp
  have quotes : ((lines.map PlainLine.quoted).mapIdx Token.plain).map Token.kind =
      lines.map (.quote 0) := by
    apply List.ext_getElem?
    simp [Token.plain_quoted, Function.comp_def]
  obtain ⟨t, rest, rfl⟩ := List.exists_cons_of_ne_nil nonempty
  have items : BlockReader.read options (Token.ofLines 0 none ((t :: rest).map PlainLine.quoted)) =
      [.quote 0 (t :: rest)] := by
    rw [tokens, BlockReader.read,
      BlockReader.foldl_quotes_empty options quotes (by simp [Token.plain_quoted])]
    rfl
  have shift : Diagnostic.shift 0 = id := funext Diagnostic.shift_zero
  rw [parseWithin, tokenize_quoted clean]
  dsimp only
  rw [items]
  cases read : parseWithin options levels (t :: rest) <;>
    simp [Item.completeAll, Item.complete, read, shift, Blocks.concat, Blocks.append]

/-- A line that is cut leaves something behind the quote. -/
theorem length_parseWithin_quoted (levels : Nat) (clean : ∃ tokens, tokenize lines = .ok tokens)
    {t : Text} (mem : t ∈ lines) (cut : ¬ t.Uncut) {b : Blocks}
    (read : parseWithin options levels (lines.map PlainLine.quoted) = some b) :
    2 ≤ b.nodes.length := by
  cases levels with
  | zero => cases read
  | succ levels =>
    rw [parseWithin, tokenize_quoted clean] at read
    have shown := BlockReader.certain_quotedLines options (.inl rfl) mem cut 0
    exact shown.trans (BlockReader.certain_le_nodes _ read)

/-- A document is what a quote of its lines holds exactly if none of them is cut. -/
theorem parse_quoted_iff (nonempty : lines ≠ []) (clean : ∃ tokens, tokenize lines = .ok tokens)
    {body : Blocks} (read : parse options lines = some body) :
    parse options (lines.map PlainLine.quoted) =
        some ⟨[.blockQuote body.nodes], body.diagnostics⟩ ↔
      ∀ t ∈ lines, t.Uncut := by
  constructor
  · intro quoted t mem
    by_contra cut
    exact absurd (length_parseWithin_quoted options _ clean mem cut quoted) (by simp)
  · intro uncut
    obtain ⟨levels, enough⟩ : ∃ levels, Blocks.levels (lines.map PlainLine.quoted) = levels + 1 :=
      Nat.exists_eq_succ_of_ne_zero (Nat.ne_of_gt (Nat.two_pow_pos _))
    have fewer : Blocks.levels lines < Blocks.levels (lines.map PlainLine.quoted) :=
      Nat.pow_lt_pow_right Nat.one_lt_two (PlainLine.size_quoted nonempty)
    have inside : parseWithin options levels lines = some body :=
      parseWithin_mono options (by omega) read
    rw [parse, enough, parseWithin_quoted options levels nonempty clean uncut, inside]
    rfl

/-- A quote, a list in two levels and a table with a row that does not fit. -/
def wholeLines : List Text :=
  ["> so @b far".toList, "".toList, "- one".toList, "  - two".toList, "".toList, "| a |".toList,
    "|---|".toList, "| x | y |".toList]

theorem wholeLines_quoted :
    wholeLines ≠ [] ∧ (∃ tokens, tokenize wholeLines = .ok tokens) ∧
      ∃ body, parse {} wholeLines = some body ∧ body.nodes.length = 4 ∧
        body.diagnostics = [⟨.tableWidth 1 2, none, some 7⟩] ∧
          parse {} (wholeLines.map PlainLine.quoted) =
            some ⟨[.blockQuote body.nodes], body.diagnostics⟩ := by
  have nonempty : wholeLines ≠ [] := by decide
  have clean : ∃ tokens, tokenize wholeLines = .ok tokens := by
    rw [tokenize, show ControlCharacter.find? 0 wholeLines = none by decide]
    exact ⟨_, rfl⟩
  have reads : (parse {} wholeLines).map (fun b => (b.nodes.length, b.diagnostics)) =
      some (4, [⟨.tableWidth 1 2, none, some 7⟩]) := by decide +kernel
  obtain ⟨body, read, found⟩ := Option.map_eq_some_iff.mp reads
  obtain ⟨count, reports⟩ := Prod.mk.inj found
  exact ⟨nonempty, clean, body, read, count, reports,
    (parse_quoted_iff {} nonempty clean read).mpr (by decide)⟩

/-- A fence is opened behind the quote mark, and its lines keep theirs. -/
theorem fence_leaves_quote :
    ¬ ∀ (options : Options) (lines : List Text), lines ≠ [] →
      (∃ tokens, tokenize lines = .ok tokens) →
      ∀ body, parse options lines = some body →
        parse options (lines.map PlainLine.quoted) =
          some ⟨[.blockQuote body.nodes], body.diagnostics⟩ := by
  intro single
  have read : (parse {} ["@code".toList, "f();".toList, "@endcode".toList]).isSome := by
    decide +kernel
  obtain ⟨body, read⟩ := Option.isSome_iff_exists.mp read
  have one := single {} ["@code".toList, "f();".toList, "@endcode".toList] (by decide)
    ⟨_, rfl⟩ body read
  have two : (parse {} (["@code".toList, "f();".toList, "@endcode".toList].map
      PlainLine.quoted)).map (fun b => b.nodes.length) = some 2 := by decide +kernel
  rw [one] at two
  cases two

end Blocks

end DocComment
