import DocComment.Proofs.Line.Plain

/-!
# Written blocks

Documents of paragraphs, lists, tables and quotes, which nest, together with the lines that they
are written on and the nodes that they stand for. What cannot be written down is no document: a
list that climbs by more than one level at once, a table whose rows differ in width, or two lists
side by side, which would run together.
-/

set_option autoImplicit false

namespace DocComment

structure PlainItem where
  depth : Nat
  ordered : Bool
  body : Phrase

structure PlainList where
  first : PlainItem
  rest : List PlainItem
  starts : first.depth = 0
  climbs : (first :: rest).IsChain fun item next => next.depth ≤ item.depth + 1

structure PlainTable where
  alignments : List Alignment
  header : List Phrase
  rows : List (List Phrase)
  nonempty : alignments ≠ []
  header_width : header.length = alignments.length
  rows_width : ∀ row ∈ rows, row.length = alignments.length

mutual

/-- A block; the index tells whether it is a list. -/
inductive PlainBlock : Bool → Type
  | paragraph (body : Passage) : PlainBlock false
  | list (items : PlainList) : PlainBlock true
  | table (table : PlainTable) : PlainBlock false
  | quote {startsList : Bool} (body : PlainBlocks startsList) : PlainBlock false

/-- One block or more; the index tells whether the first is a list. -/
inductive PlainBlocks : Bool → Type
  | last {isList : Bool} (block : PlainBlock isList) : PlainBlocks isList
  | next {isList startsList : Bool} (block : PlainBlock isList) (rest : PlainBlocks startsList)
      (apart : (isList && startsList) = false) : PlainBlocks isList

end

/-! ## Lines -/

namespace PlainItem

def line (item : PlainItem) : Text := PlainLine.item item.depth item.ordered item.body

def listItem (item : PlainItem) : ListItem Node :=
  ⟨item.depth, item.ordered, [.text item.body.text]⟩

end PlainItem

namespace PlainList

def lines (l : PlainList) : List Text := (l.first :: l.rest).map PlainItem.line

def node (l : PlainList) : Node :=
  .list l.first.ordered ((l.first :: l.rest).map PlainItem.listItem)

end PlainList

namespace PlainTable

def lines (t : PlainTable) : List Text :=
  PlainLine.row t.header :: PlainLine.separator t.alignments :: t.rows.map PlainLine.row

def row (header : Bool) (cells : List Phrase) : TableRow Node :=
  ⟨header, cells.map fun c => ⟨1, 1, false, [.text c.text]⟩⟩

def node (t : PlainTable) : Node :=
  .table ⟨t.alignments, row true t.header :: t.rows.map (row false)⟩

end PlainTable

mutual

def PlainBlock.lines {isList : Bool} : PlainBlock isList → List Text
  | .paragraph body => body.lines
  | .list items => items.lines
  | .table table => table.lines
  | .quote body => body.lines.map PlainLine.quoted

/-- The lines of a document, with a blank line between two blocks. -/
def PlainBlocks.lines {startsList : Bool} : PlainBlocks startsList → List Text
  | .last block => block.lines
  | .next block rest _ => block.lines ++ [] :: rest.lines

end

mutual

def PlainBlock.node {isList : Bool} : PlainBlock isList → Node
  | .paragraph body => .paragraph [.text body.text]
  | .list items => items.node
  | .table table => table.node
  | .quote body => .blockQuote body.nodes

def PlainBlocks.nodes {startsList : Bool} : PlainBlocks startsList → List Node
  | .last block => [block.node]
  | .next block rest _ => block.node :: rest.nodes

end

/-! ## Marks -/

namespace PlainLine

theorem framed_unmarked {pieces : List Text} (h : ∀ p ∈ pieces, p.Unmarked) :
    (framed pieces).Unmarked := by
  refine .cons (by decide) fun c hc => ?_
  obtain ⟨p, hp, hc⟩ := List.mem_flatMap.1 hc
  obtain hc | hc := List.mem_append.1 hc
  · exact h p hp c hc
  · rw [List.mem_singleton.1 hc]
    decide

theorem row_unmarked (cells : List Phrase) : (row cells).Unmarked := by
  refine framed_unmarked fun p hp => ?_
  obtain ⟨c, -, rfl⟩ := List.mem_map.1 hp
  exact .append (.cons (by decide) c.unmarked) (by decide)

theorem separator_unmarked (alignments : List Alignment) : (separator alignments).Unmarked := by
  refine framed_unmarked fun p hp => ?_
  obtain ⟨a, -, rfl⟩ := List.mem_map.1 hp
  cases a <;> decide

theorem item_unmarked (depth : Nat) (ordered : Bool) (body : Phrase) :
    (item depth ordered body).Unmarked := by
  refine .append (.append ?_ ?_) body.unmarked
  · intro c hc
    rw [List.eq_of_mem_replicate hc]
    decide
  · cases ordered <;> decide

theorem quoted_unmarked {t : Text} (h : t.Unmarked) : (quoted t).Unmarked :=
  .cons (by decide) (.cons (by decide) h)

end PlainLine

theorem Passage.unmarked (p : Passage) : ∀ t ∈ p.lines, t.Unmarked := by
  intro t ht
  obtain ⟨phrase, -, rfl⟩ := List.mem_map.1 ht
  exact phrase.unmarked

theorem PlainItem.unmarked (item : PlainItem) : item.line.Unmarked :=
  PlainLine.item_unmarked _ _ _

theorem PlainList.unmarked (l : PlainList) : ∀ t ∈ l.lines, t.Unmarked := by
  intro t ht
  obtain ⟨item, -, rfl⟩ := List.mem_map.1 ht
  exact item.unmarked

theorem PlainTable.unmarked (table : PlainTable) : ∀ t ∈ table.lines, t.Unmarked := by
  refine List.forall_mem_cons.2 ⟨PlainLine.row_unmarked _,
    List.forall_mem_cons.2 ⟨PlainLine.separator_unmarked _, fun t ht => ?_⟩⟩
  obtain ⟨row, -, rfl⟩ := List.mem_map.1 ht
  exact PlainLine.row_unmarked row

mutual

theorem PlainBlock.unmarked {isList : Bool} :
    (block : PlainBlock isList) → ∀ t ∈ block.lines, t.Unmarked
  | .paragraph body => body.unmarked
  | .list items => items.unmarked
  | .table table => table.unmarked
  | .quote body => by
    rw [PlainBlock.lines, List.forall_mem_map]
    exact fun t ht => PlainLine.quoted_unmarked (body.unmarked t ht)

theorem PlainBlocks.unmarked {startsList : Bool} :
    (blocks : PlainBlocks startsList) → ∀ t ∈ blocks.lines, t.Unmarked
  | .last block => block.unmarked
  | .next block rest _ => by
    rw [PlainBlocks.lines, List.forall_mem_append, List.forall_mem_cons]
    exact ⟨block.unmarked, by simp [Text.Unmarked], rest.unmarked⟩

end

end DocComment
