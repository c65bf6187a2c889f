import DocComment.Block.Blocks
import DocComment.Proofs.Line.Spelled
import DocComment.Proofs.Table.Draft

/-!
# What one token does

A token goes into a quote or a definition list, or else into a block that holds text. In that case
nothing is added but nodes and reports about the token itself, whatever is closed on the way.
-/

set_option autoImplicit false

namespace DocComment

namespace Token.Kind

/-- The columns that a row or a separator has where `expected` are needed. -/
def width? (expected : Nat) : Kind → Option Nat
  | .tableRow cells => some (TableCell.width (TableDraft.fitted expected cells))
  | .tableSeparator alignments => some alignments.length
  | _ => none

/-- Whether a row or a separator has `found` columns where another number is needed. -/
def Misfits (expected found : Nat) (kind : Kind) : Prop :=
  kind.width? expected = some found ∧ found ≠ expected

instance (expected found : Nat) (kind : Kind) : Decidable (kind.Misfits expected found) :=
  inferInstanceAs (Decidable (_ ∧ _))

end Token.Kind

/-- Outside fences nothing is read twice. -/
theorem Token.repeats_eq_false {token : Token} (unfenced : token.kind.isFenced = false) :
    token.repeats = false := by
  unfold repeats
  split
  next kind => simp [kind, Kind.isFenced] at unfenced
  · rfl

/-- Whether an item holds no lines, and is about this token if it is a report. -/
def Item.IsText (token : Token) : Item → Prop
  | .node _ => True
  | .report line problem => line = token.line ∧
    ∀ expected found, problem = .tableWidth expected found → token.kind.Misfits expected found
  | .quote _ _ | .definitions _ _ => False

theorem Item.isText_paragraph (token : Token) (lines : List Text) :
    ∀ item ∈ Item.paragraph lines, item.IsText token := by
  unfold Item.paragraph
  dsimp only
  split
  · simp
  · simp [Item.IsText]

/-- Whether the contents of a block are a document of their own. -/
def OpenBlock.isNested : OpenBlock → Bool
  | .quote _ _ | .definitions _ _ _ _ => true
  | _ => false

theorem OpenBlock.items_isText {block : OpenBlock} (h : block.isNested = false) (token : Token) :
    ∀ item ∈ block.items, item.IsText token := by
  cases block with
  | paragraph lines => exact Item.isText_paragraph token lines
  | quote | definitions => cases h
  | _ => simp [items, Item.IsText]

namespace BlockReader

theorem items_eq (r : BlockReader) :
    r.items = r.closed ++ (r.current.map OpenBlock.items).getD [] := by
  cases h : r.current <;> simp [items, close, h]

theorem items_close (r : BlockReader) : r.close.items = r.items := by
  cases h : r.current <;> simp [items, close, h]

/-! ### What all items have -/

section

variable {P : Item → Prop} {r : BlockReader} {block : OpenBlock}

theorem forall_items_iff : (∀ item ∈ r.items, P item) ↔
    (∀ item ∈ r.closed, P item) ∧ ∀ b ∈ r.current, ∀ item ∈ b.items, P item := by
  rw [items_eq, List.forall_mem_append]
  cases r.current <;> simp

theorem forall_items_close (h : ∀ item ∈ r.items, P item) : ∀ item ∈ r.close.items, P item := by
  rwa [items_close]

theorem forall_items_begin (h : ∀ item ∈ r.items, P item) (hb : ∀ item ∈ block.items, P item) :
    ∀ item ∈ (r.begin block).items, P item :=
  forall_items_iff.mpr ⟨h, by simpa [begin] using hb⟩

theorem forall_items_extend (h : ∀ item ∈ r.items, P item) (hb : ∀ item ∈ block.items, P item) :
    ∀ item ∈ (r.extend block).items, P item :=
  forall_items_iff.mpr ⟨(forall_items_iff.mp h).1, by simpa [extend] using hb⟩

theorem forall_items_extendDefinitions (h : ∀ item ∈ r.items, P item) {start line : Nat}
    {lines : List Text} {depth : Int} (list : P (.definitions start lines))
    (report : P (.report start .unclosedDefinitionList)) :
    ∀ item ∈ (r.extendDefinitions start lines depth line).items, P item := by
  have extended : ∀ item ∈ (r.extend (.definitions start lines depth line)).items, P item := by
    refine forall_items_extend h
      (List.forall_mem_append.mpr ⟨?_, List.forall_mem_singleton.mpr list⟩)
    split
    · exact List.forall_mem_singleton.mpr report
    · exact nofun
  unfold extendDefinitions
  split
  · exact forall_items_close extended
  · exact extended

end

/-- Whether what has been read after a token differs only by text and reports about it. -/
structure AddsText (token : Token) (r after : BlockReader) : Prop where
  block : ∀ b ∈ after.current, b.isNested = false
  items : ∀ item ∈ after.items, item ∈ r.items ∨ item.IsText token

namespace AddsText

variable {token : Token} {r after : BlockReader} {block : OpenBlock}

theorem refl (text : ∀ b ∈ r.current, b.isNested = false) : AddsText token r r :=
  ⟨text, fun _ => .inl⟩

theorem begin (text : block.isNested = false) : AddsText token r (r.begin block) := by
  constructor
  · simpa [BlockReader.begin] using text
  · intro item mem
    rw [items_eq] at mem
    exact (List.mem_append.mp mem).imp id fun here => OpenBlock.items_isText text token item here

theorem extend (text : block.isNested = false) : AddsText token r (r.extend block) := by
  constructor
  · simpa [BlockReader.extend] using text
  · intro item mem
    rw [items_eq] at mem ⊢
    exact (List.mem_append.mp mem).imp (List.mem_append_left _)
      fun here => OpenBlock.items_isText text token item here

theorem close (h : ∀ item ∈ after.items, item ∈ r.items ∨ item.IsText token) :
    AddsText token r after.close := by
  constructor
  · cases current : after.current <;> simp [BlockReader.close, current]
  · rwa [items_close]

theorem put (h : AddsText token r after) {more : List Item}
    (text : ∀ item ∈ more, item.IsText token) : AddsText token r (after.put more) := by
  constructor
  · exact h.block
  · intro item mem
    have known := h.items item
    rw [items_eq, BlockReader.put] at mem
    rw [items_eq] at known
    simp only [List.mem_append] at mem known
    obtain (old | new) | last := mem
    · exact known (.inl old)
    · exact .inr (text item new)
    · exact known (.inr last)

end AddsText

/-- What a token does to a reader. -/
inductive Reads (token : Token) (r : BlockReader) : BlockReader → Prop
  /-- What comes inside a fence says nothing outside of it. -/
  | ignored (fenced : token.kind.isFenced = true) : Reads token r r
  | text {after : BlockReader} (added : AddsText token r after) : Reads token r after
  | quote {indent : Nat} {text : Text} (kind : token.kind = .quote indent text) :
      Reads token r (r.begin (.quote token.line [text]))
  | quoteOn {indent start : Nat} {text : Text} {lines : List Text}
      (kind : token.kind = .quote indent text) (current : r.current = some (.quote start lines)) :
      Reads token r (r.extend (.quote start (lines ++ [text])))
  | list (unfenced : token.kind.isFenced = false) : Reads token r
      (r.close.extendDefinitions token.line [token.raw] (DefinitionTag.balance token.raw)
        token.line)
  | listOn {start lastLine : Nat} {lines : List Text} {depth : Int}
      (current : r.current = some (.definitions start lines depth lastLine)) : Reads token r
      (r.extendDefinitions start (joinLine lines lastLine token.line token.spelling)
        (depth + DefinitionTag.balance token.spelling) token.line)

variable {options : Options} {token : Token}

theorem reads_plainLine (r : BlockReader) (unfenced : token.kind.isFenced = false) (indent : Nat)
    (text : Text) : Reads token r (plainLine options r indent text token.raw token.line) := by
  unfold plainLine
  extract_lets preformatted begun
  have starts : Reads token r begun := by
    dsimp only [begun]
    split
    · exact .text (.begin rfl)
    · split
      · exact .list unfenced
      · exact .text (.begin rfl)
  split
  · split
    · exact .text (.extend rfl)
    · exact starts
  · split
    · exact starts
    · exact .text (.extend rfl)
  · split
    · exact .text (.extend rfl)
    · exact starts
  · exact starts

theorem reads_itemLine (r : BlockReader) (unfenced : token.kind.isFenced = false)
    (marker : ListMarker) (indent : Nat) (text : Text) :
    Reads token r (itemLine options r marker indent text token.raw token.line) := by
  unfold itemLine
  dsimp only
  split
  · exact .text (.extend rfl)
  · exact .text (.begin rfl)
  · split
    · exact reads_plainLine r unfenced _ _
    · exact .text (.begin rfl)

theorem reads_rowLine (r : BlockReader) {cells : List Text} (kind : token.kind = .tableRow cells) :
    Reads token r (r.rowLine cells token.raw token.line) := by
  unfold rowLine
  split
  next draft current =>
    rw [TableDraft.addRow_eq]
    by_cases fits : TableCell.width (TableDraft.fitted draft.columns cells) = draft.columns
    · rw [if_pos fits]
      exact .text (.extend rfl)
    · rw [if_neg fits]
      have table : AddsText token r r := .refl (by simp [current, OpenBlock.isNested])
      have report : Item.IsText token (.report token.line (.tableWidth draft.columns
          (TableCell.width (TableDraft.fitted draft.columns cells)))) := by
        simp only [Item.IsText, Problem.tableWidth.injEq, kind, Token.Kind.Misfits, true_and]
        rintro expected found ⟨rfl, rfl⟩
        exact ⟨rfl, fits⟩
      have reported := table.put (List.forall_mem_singleton.mpr report)
      exact .text ((AddsText.close reported.items).put (Item.isText_paragraph token _))
  next => exact .text (.begin rfl)

theorem reads_separatorLine (r : BlockReader) {alignments : List Alignment}
    (kind : token.kind = .tableSeparator alignments) :
    Reads token r (separatorLine options r alignments token.raw token.line) := by
  have text : Reads token r
      (plainLine options r 0 (Text.trim token.raw) token.raw token.line) :=
    reads_plainLine r (by rw [kind]; rfl) _ _
  unfold separatorLine
  dsimp only
  split
  next draft current =>
    split
    · have table : AddsText token r (r.extend (.table (draft.align alignments))) := .extend rfl
      refine .text (table.put fun item mem => ?_)
      obtain ⟨found, misaligned, rfl⟩ := List.mem_map.mp mem
      simp only [Option.mem_toList, TableDraft.misaligned?] at misaligned
      by_cases same : alignments.length = draft.columns
      · simp [same] at misaligned
      · obtain rfl : alignments.length = found := by simpa [same] using misaligned
        simp only [Item.IsText, Problem.tableWidth.injEq, kind, Token.Kind.Misfits, true_and]
        rintro expected found ⟨rfl, rfl⟩
        exact ⟨rfl, same⟩
    · exact text
  · exact text

theorem reads_insideFence {r : BlockReader} {fence : Fence} {arg : Option Text}
    {lines : List Text} (current : r.current = some (.fence fence arg lines)) (token : Token) :
    Reads token r (r.insideFence fence arg lines token) := by
  have same : AddsText token r r := .refl (by simp [current, OpenBlock.isNested])
  unfold insideFence
  split
  · exact .text (.extend rfl)
  · refine .text (AddsText.close (same.put ?_).items)
    split <;> simp [Item.IsText]
  · exact .text same

theorem reads_outside (r : BlockReader) (token : Token) :
    Reads token r (outside options r token) := by
  have closed : AddsText token r r.close := .close fun _ => .inl
  unfold outside
  split
  · unfold blankLine
    split
    · exact .text (.extend rfl)
    · exact .text (.extend rfl)
    · exact .text closed
  · exact .text (.begin rfl)
  next kind => exact .ignored (by rw [kind]; rfl)
  next kind => exact .ignored (by rw [kind]; rfl)
  next kind => exact reads_itemLine r (by rw [kind]; rfl) _ _ _
  next kind => exact reads_rowLine r kind
  next kind => exact reads_separatorLine r kind
  next kind =>
    split
    next current => exact .quoteOn kind current
    · exact .quote kind
  next kind => exact reads_plainLine r (by rw [kind]; rfl) _ _
  next kind =>
    split
    · exact .text (closed.put (by simp [Item.IsText]))
    · exact reads_plainLine r (by rw [kind]; rfl) _ _

/-- What a token does is one of these things. -/
theorem reads_feed (options : Options) (r : BlockReader) (token : Token) :
    Reads token r (feed options r token) := by
  unfold feed
  split
  next current => exact reads_insideFence current token
  next current => exact .listOn current
  · exact reads_outside r token

end BlockReader

end DocComment
