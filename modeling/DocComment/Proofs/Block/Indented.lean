import DocComment.Proofs.Block.Fenced
import DocComment.Proofs.Line.Uncut

/-!
# Indented text

Text that is indented deeply enough is kept as it is, list markers and blank lines between
included. But only text and list markers are asked for their indent: a line that reads as a quote,
as a table row or as a separator is read as that, however deep it stands. So indented text is kept
whole exactly if no line of it does.
-/

set_option autoImplicit false

namespace DocComment

namespace Text

/-- A line without its first `n` bytes; a line that is too short becomes empty. -/
def outdent (n : Nat) (t : Text) : Text := (dropBytes? n t).getD []

theorem outdent_spaces (n : Nat) (rest : Text) :
    outdent n (List.replicate n ' ' ++ rest) = rest := by
  rw [outdent, dropBytes?_eq_some.mpr ⟨_, bytes_spaces n, rfl⟩, Option.getD_some]

theorem outdent_nil (n : Nat) : outdent n [] = [] := by
  cases n <;> rfl

/-- Whether a line is no part of a quote or a table. -/
def ReadsAsText (t : Text) : Prop :=
  QuoteLine.read? t = none ∧ TableLine.separator? t = none ∧ TableLine.cells? t = none

instance (t : Text) : Decidable t.ReadsAsText := inferInstanceAs (Decidable (_ ∧ _ ∧ _))

end Text

/-- A line that is empty, or indented by `n` spaces or more; it ends where its text ends. -/
structure IndentedLine (n : Nat) (t : Text) : Prop where
  unmarked : t.Unmarked
  deep : t = [] ∨ n ≤ Text.indent t
  ended : ∀ c ∈ t.getLast?, Text.isSpace c = false

/-- Indented lines, the first and the last of which are not empty. -/
structure IndentedText (n : Nat) (lines : List Text) : Prop where
  each : ∀ t ∈ lines, IndentedLine n t
  first : ∃ t ∈ lines.head?, Text.isBlank t = false
  last : ∃ t ∈ lines.getLast?, Text.isBlank t = false

theorem IndentedLine.exists_rest {n : Nat} {t : Text} (h : IndentedLine n t) (nonempty : t ≠ []) :
    ∃ rest, t = List.replicate n ' ' ++ rest ∧ Text.trimEnd rest = rest ∧
      Text.isBlank t = false := by
  obtain ⟨rest, same⟩ := Text.exists_spaces (h.deep.resolve_left nonempty)
  have last := h.ended (t.getLast nonempty) (List.getLast?_eq_getLast_of_ne_nil nonempty)
  refine ⟨rest, same, Text.trimEnd_eq_self fun c mem => h.ended c ?_, ?_⟩
  · -- white space at the end of the rest would be there at the end of the line
    rw [same, List.getLast?_append, Option.mem_def.mp mem]
    rfl
  · exact List.all_eq_false.mpr ⟨_, List.getLast_mem nonempty, by simp [last]⟩

theorem Text.ne_nil_of_shown {t : Text} (shown : isBlank t = false) : t ≠ [] := by
  rintro rfl
  cases shown

namespace IndentedText

variable {n : Nat} {lines : List Text}

theorem nonempty_first (h : IndentedText n lines) : ∀ t ∈ lines.head?, t ≠ [] := by
  obtain ⟨first, start, shown⟩ := h.first
  intro t mem
  obtain rfl : first = t := Option.mem_unique start mem
  exact Text.ne_nil_of_shown shown

theorem nonempty_last (h : IndentedText n lines) :
    ∃ t ∈ (lines.map (Text.outdent n)).getLast?, t ≠ [] := by
  obtain ⟨last, stop, shown⟩ := h.last
  have mem := List.mem_of_getLast? stop
  obtain ⟨rest, rfl, -, -⟩ := (h.each last mem).exists_rest (Text.ne_nil_of_shown shown)
  refine ⟨rest, ?_, ?_⟩
  · rw [List.getLast?_map, Option.mem_def.mp stop, Option.map_some, Text.outdent_spaces]
    rfl
  · rintro rfl
    simp [Text.isBlank, Text.isSpace] at shown

end IndentedText

/-! ## Tokens of indented lines -/

namespace Token.Kind

/-- Whether the line of such a token can become a line of a verbatim block. -/
def isKept : Kind → Bool
  | .blank | .text _ _ | .listItem _ _ _ | .fenceBody _ => true
  | _ => false

theorem readsAsText_iff (t : Text) : t.ReadsAsText ↔ (ofText t).isKept = true := by
  unfold ofText Text.ReadsAsText
  split <;> simp_all [isKept]

/-- A line of text or of a list item, with its indent. -/
inductive Indented (n : Nat) : Kind → Prop
  | text {indent : Nat} {t : Text} (deep : n ≤ indent) : Indented n (.text indent t)
  | listItem {marker : ListMarker} {indent : Nat} {t : Text} (deep : n ≤ indent) :
      Indented n (.listItem marker indent t)

theorem indented_ofText {n : Nat} {t : Text} (plain : t.ReadsAsText) (deep : n ≤ Text.indent t) :
    Indented n (ofText t) := by
  obtain ⟨quote, separator, cells⟩ := plain
  unfold ofText
  rw [quote, separator, cells]
  cases item : ListLine.read? t with
  | some line =>
    obtain ⟨found, -, rfl⟩ := Option.map_eq_some_iff.mp item
    exact .listItem deep
  | none =>
    refine .text ?_
    obtain ⟨rest, rfl⟩ := Text.exists_spaces deep
    have spaces : ∀ c ∈ List.replicate n ' ', Text.isSpace c = true := by simp [Text.isSpace]
    have shorter := Text.bytes_le_of_sublist (Text.trimStart_sublist rest)
    have trimmed : Text.trimStart (List.replicate n ' ' ++ rest) = Text.trimStart rest := by
      rw [Text.trimStart, List.dropWhile_append_of_pos spaces, Text.trimStart]
    rw [trimmed, Text.bytes_append, Text.bytes_spaces]
    omega

end Token.Kind

theorem IndentedLine.readsAsText {n line : Nat} {t : Text} (h : IndentedLine n t)
    (kept : (Token.plain line t).kind.isKept = true) : t.ReadsAsText := by
  rcases eq_or_ne t [] with rfl | nonempty
  · decide
  · obtain ⟨-, -, -, shown⟩ := h.exists_rest nonempty
    rw [Token.plain, shown] at kept
    exact (Token.Kind.readsAsText_iff t).mpr kept

namespace BlockReader

variable {options : Options} {r : BlockReader} {lines : List Text}

/-! ## Lines that are kept -/

/-- A reader that has met nothing but `lines` of indented text. -/
inductive Keeps : List Text → BlockReader → Prop
  | start : Keeps [] empty
  | lines (lines : List Text) (blanks : Nat) :
      Keeps (lines ++ List.replicate blanks []) ⟨some (.verbatim lines blanks), []⟩

theorem Keeps.feed_eq (h : Keeps lines r) (token : Token) :
    feed options r token = outside options r token := by
  cases h <;> rfl

theorem Keeps.blank (h : Keeps lines r) (nonempty : lines ≠ []) :
    Keeps (lines ++ [[]]) r.blankLine := by
  cases h with
  | start => exact absurd rfl nonempty
  | lines kept blanks =>
    rw [List.append_assoc, ← List.replicate_succ']
    exact .lines kept (blanks + 1)

theorem Keeps.plainLine (h : Keeps lines r) {indent : Nat}
    (deep : options.verbatimIndent ≤ indent) (text rest : Text) (line : Nat) :
    plainLine options r indent text (List.replicate options.verbatimIndent ' ' ++ rest) line =
      ⟨some (.verbatim (lines ++ [Text.trimEnd rest]) 0), []⟩ := by
  have cut : Text.dropBytes? options.verbatimIndent
      (List.replicate options.verbatimIndent ' ' ++ rest) = some rest :=
    Text.dropBytes?_eq_some.mpr ⟨_, Text.bytes_spaces _, rfl⟩
  cases h with
  | start => simp [BlockReader.plainLine, empty, begin, close, deep, cut]
  | lines kept blanks => simp [BlockReader.plainLine, extend, deep, cut]

/-- Text and list markers are kept alike. -/
theorem Keeps.indented (h : Keeps lines r) {token : Token} {rest : Text}
    (raw : token.raw = List.replicate options.verbatimIndent ' ' ++ rest)
    (deep : token.kind.Indented options.verbatimIndent) :
    feed options r token = ⟨some (.verbatim (lines ++ [Text.trimEnd rest]) 0), []⟩ := by
  obtain ⟨indent, text, deep, same⟩ : ∃ indent text, options.verbatimIndent ≤ indent ∧
      outside options r token =
        BlockReader.plainLine options r indent text token.raw token.line := by
    unfold outside
    generalize token.kind = kind at deep
    cases deep with
    | text deep => exact ⟨_, _, deep, rfl⟩
    | @listItem marker indent t deep =>
      refine ⟨indent, Text.trim token.raw, deep, ?_⟩
      cases h <;> exact if_pos deep
  rw [h.feed_eq, same, raw, h.plainLine deep]

/-- What a line that reads as text adds. The first line must not be empty. -/
theorem Keeps.line (h : Keeps lines r) {t : Text} (unblank : lines = [] → t ≠ [])
    (indented : IndentedLine options.verbatimIndent t) (plain : t.ReadsAsText) (line : Nat) :
    Keeps (lines ++ [Text.outdent options.verbatimIndent t])
      (feed options r (Token.plain line t)) := by
  rcases eq_or_ne t [] with rfl | nonempty
  · rw [h.feed_eq, Text.outdent_nil]
    exact h.blank fun none => unblank none rfl
  · obtain ⟨rest, same, tight, shown⟩ := indented.exists_rest nonempty
    have kind := Token.Kind.indented_ofText plain (indented.deep.resolve_left nonempty)
    have token : Token.plain line t = ⟨line, .ofText t, t⟩ := by
      rw [Token.plain, shown]
      rfl
    have whole := Keeps.lines (lines ++ [rest]) 0
    rw [List.replicate_zero, List.append_nil] at whole
    rwa [token, h.indented same kind, tight, same, Text.outdent_spaces]

theorem Keeps.ofLines (h : Keeps lines r) {more : List Text}
    (unblank : lines = [] → ∀ t ∈ more.head?, t ≠ [])
    (indented : ∀ t ∈ more, IndentedLine options.verbatimIndent t)
    (plain : ∀ t ∈ more, t.ReadsAsText) (line : Nat) :
    Keeps (lines ++ more.map (Text.outdent options.verbatimIndent))
      ((Token.ofLines line none more).foldl (feed options) r) := by
  induction more generalizing lines r line with
  | nil => simpa [Token.ofLines] using h
  | cons t more ih =>
    rw [List.forall_mem_cons] at indented plain
    have here := h.line (fun none => unblank none t rfl) indented.1 plain.1 line
    have later := ih here (by simp) indented.2 plain.2 (line + 1)
    rw [Token.ofLines_unmarked indented.1.unmarked]
    simpa using later

/-- Blank lines at the end of verbatim text do not count; otherwise it is all there. -/
theorem Keeps.items (h : Keeps lines r) (last : ∃ t ∈ lines.getLast?, t ≠ []) :
    r.items = [.node (.verbatim lines)] := by
  cases h with
  | start => simp at last
  | lines kept blanks =>
    cases blanks with
    | zero => simp [BlockReader.items, close, OpenBlock.items]
    | succ blanks => simp [List.replicate_succ'] at last

end BlockReader

/-! ## How many lines are kept -/

/-- How many lines a verbatim block shows. -/
def Node.verbatimLines : Node → Nat
  | .verbatim lines => lines.length
  | _ => 0

namespace Item

def verbatimLines : Item → Nat
  | .node n => n.verbatimLines
  | _ => 0

theorem verbatimLines_complete {inner : BlockParser} {item : Item} {b : Blocks}
    (read : item.complete inner = some b) :
    (b.nodes.map Node.verbatimLines).sum = item.verbatimLines := by
  cases item with
  | node n =>
    cases read
    simp [verbatimLines]
  | report line problem =>
    cases read
    rfl
  | quote line lines =>
    obtain ⟨body, -, rfl⟩ := Option.map_eq_some_iff.mp read
    rfl
  | definitions line lines =>
    obtain ⟨⟨list, diagnostics⟩, found, rfl⟩ := Option.map_eq_some_iff.mp read
    obtain ⟨entries, -, same⟩ := Option.bind_eq_some_iff.mp found
    cases same
    rfl

theorem verbatimLines_completeAll {inner : BlockParser} {items : List Item} {b : Blocks}
    (read : completeAll inner items = some b) :
    (b.nodes.map Node.verbatimLines).sum = (items.map verbatimLines).sum := by
  obtain ⟨parts, found, rfl⟩ := Option.map_eq_some_iff.mp read
  clear read
  induction items generalizing parts with
  | nil =>
    cases found
    rfl
  | cons item rest ih =>
    rw [List.mapM_cons] at found
    obtain ⟨part, here, found⟩ := Option.bind_eq_some_iff.mp found
    obtain ⟨others, later, same⟩ := Option.bind_eq_some_iff.mp found
    cases same
    rw [Blocks.concat, Blocks.append, List.map_append, List.sum_append,
      verbatimLines_complete here, ih others later, List.map_cons, List.sum_cons]

theorem verbatimLines_paragraph (lines : List Text) :
    ((paragraph lines).map verbatimLines).sum = 0 := by
  unfold paragraph
  dsimp only
  split <;> rfl

end Item

namespace OpenBlock

/-- How many lines a block may come to show verbatim if no more goes into it. -/
def verbatimLines : OpenBlock → Nat
  | .verbatim lines blanks => lines.length + blanks
  | .fence _ _ lines => lines.length
  | _ => 0

theorem verbatimLines_items (block : OpenBlock) :
    (block.items.map Item.verbatimLines).sum ≤ block.verbatimLines := by
  cases block with
  | paragraph lines => simp [items, Item.verbatimLines_paragraph]
  | fence fence arg lines =>
    cases fence <;>
      simp [items, Item.ofFence, Item.verbatimLines, Node.verbatimLines, verbatimLines]
  | definitions line lines depth lastLine =>
    rw [items]
    split <;> simp [Item.verbatimLines]
  | list draft => simp [items, ListDraft.toNode, Item.verbatimLines, Node.verbatimLines]
  | _ => simp [items, Item.verbatimLines, Node.verbatimLines, verbatimLines]

end OpenBlock

namespace BlockReader

/-- How many lines may be shown verbatim of what has been read. -/
def verbatimLines (r : BlockReader) : Nat :=
  (r.closed.map Item.verbatimLines).sum + (r.current.elim 0 OpenBlock.verbatimLines)

section

variable (r : BlockReader)

theorem verbatimLines_close : r.close.verbatimLines ≤ r.verbatimLines := by
  cases current : r.current with
  | none => simp [close, current]
  | some block =>
    simpa [close, verbatimLines, current] using block.verbatimLines_items

theorem verbatimLines_begin (block : OpenBlock) :
    (r.begin block).verbatimLines ≤ r.verbatimLines + block.verbatimLines := by
  have closed : (r.close.closed.map Item.verbatimLines).sum ≤ r.close.verbatimLines :=
    Nat.le_add_right _ _
  exact Nat.add_le_add_right (closed.trans r.verbatimLines_close) _

theorem verbatimLines_extend {block before : OpenBlock} (current : r.current = some before)
    {n : Nat} (grows : block.verbatimLines ≤ before.verbatimLines + n) :
    (r.extend block).verbatimLines ≤ r.verbatimLines + n := by
  simp only [verbatimLines, extend, current, Option.elim_some]
  omega

theorem verbatimLines_put {items : List Item} (other : (items.map Item.verbatimLines).sum = 0) :
    (r.put items).verbatimLines = r.verbatimLines := by
  simp [verbatimLines, put, other]

theorem verbatimLines_extendDefinitions (start : Nat) (lines : List Text) (depth : Int)
    (line : Nat) :
    (r.extendDefinitions start lines depth line).verbatimLines ≤ r.verbatimLines := by
  have extended : (r.extend (.definitions start lines depth line)).verbatimLines ≤
      r.verbatimLines := Nat.add_le_add_left (Nat.zero_le _) _
  unfold extendDefinitions
  dsimp only
  split
  · exact (verbatimLines_close _).trans extended
  · exact extended

end

/-! ### Single tokens -/

variable (options : Options) (r : BlockReader)

theorem verbatimLines_plainLine (indent : Nat) (text raw : Text) (line : Nat) :
    (plainLine options r indent text raw line).verbatimLines ≤
      r.verbatimLines + if options.verbatimIndent ≤ indent then 1 else 0 := by
  unfold plainLine
  extract_lets preformatted begun
  have starts : begun.verbatimLines ≤
      r.verbatimLines + if options.verbatimIndent ≤ indent then 1 else 0 := by
    dsimp only [begun]
    split
    · exact r.verbatimLines_begin _
    · split
      · exact (verbatimLines_extendDefinitions _ _ _ _ _).trans r.verbatimLines_close
      · exact r.verbatimLines_begin _
  split
  next draft current =>
    split
    · exact r.verbatimLines_extend current (Nat.zero_le _)
    · exact starts
  next lines current =>
    split
    · exact starts
    · exact r.verbatimLines_extend current (Nat.zero_le _)
  next lines blanks current =>
    split
    next deep =>
      exact r.verbatimLines_extend current (by simp [OpenBlock.verbatimLines, Nat.add_assoc])
    next shallow => rwa [if_neg shallow] at starts
  · exact starts

theorem verbatimLines_itemLine (marker : ListMarker) (indent : Nat) (text raw : Text)
    (line : Nat) :
    (itemLine options r marker indent text raw line).verbatimLines ≤ r.verbatimLines + 1 := by
  have begun : (r.begin (.list (.start marker indent text))).verbatimLines ≤ r.verbatimLines + 1 :=
    (r.verbatimLines_begin _).trans (Nat.le_succ _)
  unfold itemLine
  dsimp only
  split
  next draft current => exact r.verbatimLines_extend current (Nat.zero_le _)
  · exact begun
  · split
    next deep =>
      have text := r.verbatimLines_plainLine options indent (Text.trim raw) raw line
      rwa [if_pos deep] at text
    · exact begun

theorem verbatimLines_rowLine (cells : List Text) (raw : Text) (line : Nat) :
    (r.rowLine cells raw line).verbatimLines ≤ r.verbatimLines := by
  unfold rowLine
  split
  next draft current =>
    split
    · exact r.verbatimLines_extend (n := 0) current (Nat.zero_le _)
    · rw [verbatimLines_put _ (Item.verbatimLines_paragraph _)]
      exact (verbatimLines_close _).trans_eq (r.verbatimLines_put rfl)
  · exact r.verbatimLines_begin _

/-- A separator is asked for no indent. -/
theorem verbatimLines_separatorLine (deep : 1 ≤ options.verbatimIndent)
    (alignments : List Alignment) (raw : Text) (line : Nat) :
    (separatorLine options r alignments raw line).verbatimLines ≤ r.verbatimLines := by
  have text := r.verbatimLines_plainLine options 0 (Text.trim raw) raw line
  rw [if_neg (Nat.not_le.mpr deep)] at text
  unfold separatorLine
  dsimp only
  split
  next draft current =>
    split
    · have none (found : Option Nat) : ((found.toList.map fun found =>
          Item.report line (.tableWidth draft.columns found)).map Item.verbatimLines).sum = 0 := by
        cases found <;> rfl
      rw [verbatimLines_put _ (none _)]
      exact r.verbatimLines_extend (n := 0) current (Nat.zero_le _)
    · exact text
  · exact text

theorem verbatimLines_blankLine : r.blankLine.verbatimLines ≤ r.verbatimLines + 1 := by
  unfold blankLine
  split
  next draft current => exact r.verbatimLines_extend current (Nat.zero_le _)
  next lines blanks current => exact r.verbatimLines_extend current (Nat.le_refl _)
  · exact r.verbatimLines_close.trans (Nat.le_succ _)

theorem verbatimLines_insideFence {fence : Fence} {arg : Option Text} {lines : List Text}
    (current : r.current = some (.fence fence arg lines)) (token : Token) :
    (r.insideFence fence arg lines token).verbatimLines ≤
      r.verbatimLines + if token.kind.isKept then 1 else 0 := by
  unfold insideFence
  split
  next text kind =>
    rw [kind]
    exact r.verbatimLines_extend current (by simp [OpenBlock.verbatimLines, Token.Kind.isKept])
  next fence isImplicit kind =>
    refine (verbatimLines_close _).trans ?_
    rw [verbatimLines_put _ (by split <;> rfl)]
    exact Nat.le_add_right _ _
  · exact Nat.le_add_right _ _

theorem verbatimLines_outside (deep : 1 ≤ options.verbatimIndent) (token : Token) :
    (outside options r token).verbatimLines ≤
      r.verbatimLines + if token.kind.isKept then 1 else 0 := by
  have shallow (text raw : Text) (line : Nat) :
      (plainLine options r 0 text raw line).verbatimLines ≤ r.verbatimLines := by
    have text := r.verbatimLines_plainLine options 0 text raw line
    rwa [if_neg (Nat.not_le.mpr deep)] at text
  unfold outside
  cases kind : token.kind with
  | blank => exact r.verbatimLines_blankLine
  | fenceOpen fence arg => exact r.verbatimLines_begin _
  | fenceBody text => exact Nat.le_add_right _ _
  | fenceClose fence isImplicit => exact Nat.le_add_right _ _
  | listItem marker indent text => exact r.verbatimLines_itemLine options _ _ _ _ _
  | tableRow cells => exact r.verbatimLines_rowLine _ _ _
  | tableSeparator alignments => exact r.verbatimLines_separatorLine options deep _ _ _
  | quote indent text =>
    dsimp only
    split
    next line lines current => exact r.verbatimLines_extend current (Nat.zero_le _)
    · exact r.verbatimLines_begin _
  | text indent text =>
    refine (r.verbatimLines_plainLine options _ _ _ _).trans (Nat.add_le_add_left ?_ _)
    split <;> simp [Token.Kind.isKept]
  | command name args =>
    dsimp only
    split
    · rw [verbatimLines_put _ rfl]
      exact r.verbatimLines_close
    · exact shallow _ _ _

/-- Only blank lines, text, list markers and the lines of fences add to what may be verbatim. -/
theorem verbatimLines_feed (deep : 1 ≤ options.verbatimIndent) (token : Token) :
    (feed options r token).verbatimLines ≤
      r.verbatimLines + if token.kind.isKept then 1 else 0 := by
  unfold feed
  split
  next fence arg lines current => exact r.verbatimLines_insideFence current token
  · exact (r.verbatimLines_extendDefinitions _ _ _ _).trans (Nat.le_add_right _ _)
  · exact r.verbatimLines_outside options deep token

theorem verbatimLines_foldl (deep : 1 ≤ options.verbatimIndent) (tokens : List Token) :
    (tokens.foldl (feed options) r).verbatimLines ≤
      r.verbatimLines + tokens.countP fun token => token.kind.isKept := by
  induction tokens generalizing r with
  | nil => exact Nat.le_refl _
  | cons token rest ih =>
    have here := r.verbatimLines_feed options deep token
    have later := ih (feed options r token)
    rw [List.countP_cons, List.foldl_cons]
    omega

/-- No more lines are shown verbatim than were fed that may be. -/
theorem verbatimLines_read (deep : 1 ≤ options.verbatimIndent) {tokens : List Token}
    {inner : BlockParser} {b : Blocks}
    (parsed : Item.completeAll inner (read options tokens) = some b) :
    (b.nodes.map Node.verbatimLines).sum ≤ tokens.countP fun token => token.kind.isKept := by
  have shown := verbatimLines_close (tokens.foldl (feed options) empty)
  have fed := verbatimLines_foldl options empty deep tokens
  have none : empty.verbatimLines = 0 := rfl
  rw [Item.verbatimLines_completeAll parsed, read, items]
  rw [verbatimLines] at shown
  omega

end BlockReader

/-- Indented text is kept whole exactly if all of its lines read as text. -/
theorem indented_kept_iff {options : Options} (deep : 1 ≤ options.verbatimIndent)
    {lines : List Text} (indented : IndentedText options.verbatimIndent lines) :
    Blocks.parse options lines =
        some ⟨[.verbatim (lines.map (Text.outdent options.verbatimIndent))], []⟩ ↔
      ∀ t ∈ lines, t.ReadsAsText := by
  have unmarked : ∀ t ∈ lines, t.Unmarked := fun t mem => (indented.each t mem).unmarked
  obtain ⟨levels, enough⟩ := Nat.exists_eq_succ_of_ne_zero (Blocks.levels_ne_zero lines)
  have parsed : Blocks.parse options lines = Item.completeAll (Blocks.parseWithin options levels)
      (BlockReader.read options (Token.ofLines 0 none lines)) := by
    rw [Blocks.parse, enough, Blocks.parseWithin, tokenize_unmarked unmarked]
  rw [parsed]
  constructor
  · intro kept t mem
    have shown := BlockReader.verbatimLines_read options deep kept
    rw [Token.ofLines_uncut fun t mem => (unmarked t mem).uncut] at shown
    -- every line has one token and is shown, so every token is of a kind that may be
    have all : ∀ token ∈ lines.mapIdx fun i t => Token.plain (0 + i) t, token.kind.isKept := by
      rw [← List.countP_eq_length, List.length_mapIdx]
      refine Nat.le_antisymm (List.countP_le_length.trans_eq List.length_mapIdx) ?_
      simpa [Node.verbatimLines] using shown
    obtain ⟨i, inside, rfl⟩ := List.mem_iff_getElem.mp mem
    refine (indented.each _ mem).readsAsText (all (Token.plain (0 + i) lines[i]) ?_)
    exact List.mem_mapIdx.mpr ⟨i, inside, rfl⟩
  · intro plain
    have keeps := BlockReader.Keeps.start.ofLines (fun _ => indented.nonempty_first)
      indented.each plain 0
    rw [List.nil_append] at keeps
    rw [BlockReader.read, keeps.items indented.nonempty_last]
    rfl

def indentedItem : List Text := ["    a".toList, [], "      - b".toList]

theorem indentedItem_kept : IndentedText 4 indentedItem ∧ (∀ t ∈ indentedItem, t.ReadsAsText) ∧
    Blocks.parse {} indentedItem = some ⟨[.verbatim ["a".toList, [], "  - b".toList]], []⟩ := by
  have indented : IndentedText 4 indentedItem := by
    have unmarked : ∀ t ∈ indentedItem, t.Unmarked := by decide +kernel
    have deep : ∀ t ∈ indentedItem, t = [] ∨ 4 ≤ Text.indent t := by decide +kernel
    have ended : ∀ t ∈ indentedItem, ∀ c ∈ t.getLast?, Text.isSpace c = false := by
      simp [indentedItem, Text.isSpace]
    exact ⟨fun t mem => ⟨unmarked t mem, deep t mem, ended t mem⟩, ⟨_, rfl, by decide⟩,
      ⟨_, rfl, by decide⟩⟩
  have plain : ∀ t ∈ indentedItem, t.ReadsAsText := by decide +kernel
  exact ⟨indented, plain, (indented_kept_iff (by decide) indented).mpr plain⟩

/-- A quote, a separator and a table row. -/
def indentedMarks : List Text := ["    > a".toList, "    -|-".toList, "    |b|".toList]

/-- None of these lines is kept as it is. -/
theorem indentedMarks_lost : ¬ ∀ (options : Options) (lines : List Text),
    1 ≤ options.verbatimIndent → IndentedText options.verbatimIndent lines →
      Blocks.parse options lines =
        some ⟨[.verbatim (lines.map (Text.outdent options.verbatimIndent))], []⟩ := by
  intro kept
  have indented : IndentedText 4 indentedMarks := by
    have unmarked : ∀ t ∈ indentedMarks, t.Unmarked := by decide +kernel
    have deep : ∀ t ∈ indentedMarks, t = [] ∨ 4 ≤ Text.indent t := by decide +kernel
    have ended : ∀ t ∈ indentedMarks, ∀ c ∈ t.getLast?, Text.isSpace c = false := by
      simp [indentedMarks, Text.isSpace]
    exact ⟨fun t mem => ⟨unmarked t mem, deep t mem, ended t mem⟩, ⟨_, rfl, by decide⟩,
      ⟨_, rfl, by decide⟩⟩
  have read : (Blocks.parse {} indentedMarks).map (fun b => (b.nodes.map Node.verbatimLines).sum) =
      some 0 := by decide +kernel
  rw [kept {} indentedMarks (by decide) indented] at read
  cases read

end DocComment
