import DocComment.Proofs.Block.Step
import DocComment.Proofs.Inline.Begins

/-!
# Nodes that stay

A block that is open may still take up more, and only a paragraph can end up as nothing. One that
starts with a command mark cannot. So the nodes that there are for certain only grow in number, and
reading gives at least as many.
-/

set_option autoImplicit false

namespace DocComment

/-- Whether an item is a node once it is completed. -/
def Item.isNode : Item → Bool
  | .report _ _ => false
  | _ => true

theorem Item.length_complete {inner : BlockParser} {item : Item} {b : Blocks}
    (read : item.complete inner = some b) : b.nodes.length = if item.isNode then 1 else 0 := by
  cases item with
  | node n =>
    cases read
    rfl
  | report line problem =>
    cases read
    rfl
  | quote line lines =>
    obtain ⟨body, -, rfl⟩ := Option.map_eq_some_iff.mp read
    rfl
  | definitions line lines =>
    obtain ⟨list, -, rfl⟩ := Option.map_eq_some_iff.mp read
    rfl

theorem Item.length_completeAll {inner : BlockParser} {items : List Item} {b : Blocks}
    (read : completeAll inner items = some b) : b.nodes.length = items.countP Item.isNode := by
  obtain ⟨parts, found, rfl⟩ := Option.map_eq_some_iff.mp read
  clear read
  induction items generalizing parts with
  | nil =>
    cases found
    rfl
  | cons item rest ih =>
    rw [List.mapM_cons] at found
    obtain ⟨part, here, found⟩ := Option.bind_eq_some_iff.mp found
    obtain ⟨others, later, same⟩ := Option.bind_eq_some_iff.mp found
    cases same
    rw [List.countP_cons, Blocks.concat, Blocks.append, List.length_append, length_complete here,
      ih others later, Nat.add_comm]

namespace OpenBlock

/-- Whether a block is a node whatever else goes into it. -/
def isCertain : OpenBlock → Bool
  | .paragraph ((c :: _) :: _) => Command.isMark c
  | .paragraph _ => false
  | _ => true

theorem isCertain_append {lines : List Text} (certain : (paragraph lines).isCertain = true)
    (more : List Text) : (paragraph (lines ++ more)).isCertain = true := by
  match lines, certain with
  | (c :: t) :: rest, mark => exact mark

theorem isNode_of_isCertain {block : OpenBlock} (certain : block.isCertain = true) :
    0 < block.items.countP Item.isNode := by
  cases block with
  | paragraph lines =>
    match lines, certain with
    | (c :: t) :: rest, mark =>
      obtain ⟨more, text⟩ : ∃ more, Text.unlines ((c :: t) :: rest) = c :: more := by
        cases rest with
        | nil => exact ⟨t, by simp [Text.unlines]⟩
        | cons next rest => exact ⟨_, by rw [Text.unlines, List.intercalate_cons_cons]; rfl⟩
      have shown : (Inline.parse (Text.unlines ((c :: t) :: rest))).isEmpty = false := by
        rw [text, List.isEmpty_eq_false_iff]
        exact Inline.parse_mark mark more
      simp [items, Item.paragraph, shown, Item.isNode]
  | definitions line lines depth lastLine => simp [items, Item.isNode]
  | _ => simp [items, Item.isNode]

end OpenBlock

namespace BlockReader

/-- How many nodes there are for certain, whatever is read after. -/
def certain (r : BlockReader) : Nat :=
  r.closed.countP Item.isNode + if r.current.any OpenBlock.isCertain then 1 else 0

section

variable (r : BlockReader)

theorem certain_le_closed : r.certain ≤ r.close.closed.countP Item.isNode := by
  cases current : r.current with
  | none => simp [certain, close, current]
  | some block =>
    cases certain : block.isCertain with
    | false => simp [BlockReader.certain, close, current, certain]
    | true =>
      have := OpenBlock.isNode_of_isCertain certain
      simp only [BlockReader.certain, close, current, Option.any_some, certain, if_true,
        List.countP_append]
      omega

theorem certain_close : r.certain ≤ r.close.certain :=
  r.certain_le_closed.trans (Nat.le_add_right _ _)

theorem certain_put (items : List Item) : r.certain ≤ (r.put items).certain := by
  refine Nat.add_le_add_right ?_ _
  rw [put, List.countP_append]
  exact Nat.le_add_right _ _

theorem certain_begin (block : OpenBlock) : r.certain ≤ (r.begin block).certain :=
  r.certain_le_closed.trans (Nat.le_add_right _ _)

theorem certain_begin_succ {block : OpenBlock} (certain : block.isCertain = true) :
    r.certain + 1 ≤ (r.begin block).certain := by
  have := r.certain_le_closed
  simp only [BlockReader.certain, begin, Option.any_some, certain, if_true] at this ⊢
  omega

theorem certain_extend {block : OpenBlock}
    (keeps : ∀ b ∈ r.current, b.isCertain = true → block.isCertain = true) :
    r.certain ≤ (r.extend block).certain := by
  cases current : r.current with
  | none => simp [certain, extend, current]
  | some b =>
    have keeps := keeps b (by simp [current])
    cases before : b.isCertain with
    | false => simp [certain, extend, current, before]
    | true => simp [certain, extend, current, before, keeps before]

theorem certain_extendDefinitions (start : Nat) (lines : List Text) (depth : Int) (line : Nat) :
    r.certain ≤ (r.extendDefinitions start lines depth line).certain := by
  have extended : r.certain ≤ (r.extend (.definitions start lines depth line)).certain :=
    r.certain_extend fun _ _ _ => rfl
  unfold extendDefinitions
  dsimp only
  split
  · exact extended.trans (certain_close _)
  · exact extended

end

/-! ## Single tokens -/

variable (options : Options) (r : BlockReader)

theorem certain_plainLine (indent : Nat) (text raw : Text) (line : Nat) :
    r.certain ≤ (plainLine options r indent text raw line).certain := by
  unfold plainLine
  extract_lets preformatted begun
  have starts : r.certain ≤ begun.certain := by
    dsimp only [begun]
    split
    · exact r.certain_begin _
    · split
      · exact r.certain_close.trans (certain_extendDefinitions _ _ _ _ _)
      · exact r.certain_begin _
  split
  · split
    · exact r.certain_extend fun _ _ _ => rfl
    · exact starts
  next lines current =>
    split
    · exact starts
    · refine r.certain_extend fun b mem certain => ?_
      obtain rfl : OpenBlock.paragraph lines = b := by simpa [current] using mem
      exact OpenBlock.isCertain_append certain _
  · split
    · exact r.certain_extend fun _ _ _ => rfl
    · exact starts
  · exact starts

theorem certain_itemLine (marker : ListMarker) (indent : Nat) (text raw : Text) (line : Nat) :
    r.certain ≤ (itemLine options r marker indent text raw line).certain := by
  unfold itemLine
  dsimp only
  split
  · exact r.certain_extend fun _ _ _ => rfl
  · exact r.certain_begin _
  · split
    · exact r.certain_plainLine options _ _ _ _
    · exact r.certain_begin _

theorem certain_rowLine (cells : List Text) (raw : Text) (line : Nat) :
    r.certain ≤ (r.rowLine cells raw line).certain := by
  unfold rowLine
  split
  · split
    · exact r.certain_extend fun _ _ _ => rfl
    · exact (r.certain_put _).trans ((certain_close _).trans (certain_put _ _))
  · exact r.certain_begin _

theorem certain_separatorLine (alignments : List Alignment) (raw : Text) (line : Nat) :
    r.certain ≤ (separatorLine options r alignments raw line).certain := by
  unfold separatorLine
  dsimp only
  split
  · split
    · exact (r.certain_extend fun _ _ _ => rfl).trans (certain_put _ _)
    · exact r.certain_plainLine options _ _ _ _
  · exact r.certain_plainLine options _ _ _ _

theorem certain_blankLine : r.certain ≤ r.blankLine.certain := by
  unfold blankLine
  split
  · exact r.certain_extend fun _ _ _ => rfl
  · exact r.certain_extend fun _ _ _ => rfl
  · exact r.certain_close

theorem certain_insideFence (fence : Fence) (arg : Option Text) (lines : List Text)
    (token : Token) : r.certain ≤ (r.insideFence fence arg lines token).certain := by
  unfold insideFence
  split
  · exact r.certain_extend fun _ _ _ => rfl
  · exact (r.certain_put _).trans (certain_close _)
  · exact Nat.le_refl _

theorem certain_outside (token : Token) : r.certain ≤ (outside options r token).certain := by
  unfold outside
  split
  · exact r.certain_blankLine
  · exact r.certain_begin _
  · exact Nat.le_refl _
  · exact Nat.le_refl _
  · exact r.certain_itemLine options _ _ _ _ _
  · exact r.certain_rowLine _ _ _
  · exact r.certain_separatorLine options _ _ _
  · split
    · exact r.certain_extend fun _ _ _ => rfl
    · exact r.certain_begin _
  · exact r.certain_plainLine options _ _ _ _
  · split
    · exact r.certain_close.trans (certain_put _ _)
    · exact r.certain_plainLine options _ _ _ _

/-- No token takes back a node. -/
theorem certain_feed (token : Token) : r.certain ≤ (feed options r token).certain := by
  unfold feed
  split
  · exact r.certain_insideFence _ _ _ _
  · exact r.certain_extendDefinitions _ _ _ _
  · exact r.certain_outside options token

theorem certain_foldl (tokens : List Token) :
    r.certain ≤ (tokens.foldl (feed options) r).certain := by
  induction tokens generalizing r with
  | nil => exact Nat.le_refl _
  | cons token rest ih => exact (r.certain_feed options token).trans (ih _)

/-- What is read holds the nodes that there are for certain. -/
theorem certain_le_nodes {inner : BlockParser} {b : Blocks}
    (read : Item.completeAll inner r.items = some b) : r.certain ≤ b.nodes.length := by
  rw [Item.length_completeAll read]
  exact r.certain_le_closed

end BlockReader

end DocComment
