import DocComment.Proofs.List.Levels

/-!
# Items nest by their indents

A list takes items, further lines of the last item and blank lines, in any order. It ends up with
one item for each that it was given, and how deep an item stands is decided by the indents of the
items up to it alone.
-/

set_option autoImplicit false

namespace DocComment

/-- What an open list can be given. -/
inductive ListCall where
  | item (marker : ListMarker) (indent : Nat) (text : Text)
  /-- A line without a marker. -/
  | line (text : Text)
  | blank

/-- An item as it was given, with the lines that go on with it. -/
structure ListEntry where
  marker : ListMarker
  indent : Nat
  lines : List Text

namespace ListCall

/-- The lines before the next item. -/
def lines : List ListCall → List Text
  | .line text :: rest => text :: lines rest
  | .blank :: rest => lines rest
  | _ => []

def entries : List ListCall → List ListEntry
  | [] => []
  | .item marker indent text :: rest => ⟨marker, indent, text :: lines rest⟩ :: entries rest
  | _ :: rest => entries rest

end ListCall

namespace ListDraft

/-! ## Given items and lines -/

def give (draft : ListDraft) : ListCall → ListDraft
  | .item marker indent text => draft.addItem marker indent text
  | .line text => draft.addLine text
  | .blank => draft.addBlank

/-- The list that starts with an item and is given some more. -/
def after (marker : ListMarker) (indent : Nat) (text : Text) (calls : List ListCall) : ListDraft :=
  calls.foldl give (start marker indent text)

/-- The items that are drafted for entries where some levels are open. -/
def drafted (levels : List Nat) : List ListEntry → List DraftItem
  | [] => []
  | e :: rest =>
    ⟨(enter e.indent levels).length - 1, e.marker.isOrdered, e.lines⟩ ::
      drafted (enter e.indent levels) rest

/-- What is given to a list goes on with its last item and is drafted behind it. -/
theorem items_give (calls : List ListCall) (draft : ListDraft) (item : DraftItem)
    (rest : List DraftItem) (last : draft.items = item :: rest) :
    (calls.foldl give draft).items.reverse =
      rest.reverse ++ { item with lines := item.lines ++ ListCall.lines calls } ::
        drafted draft.levels (ListCall.entries calls) := by
  induction calls generalizing draft item rest with
  | nil => simp [last, ListCall.lines, ListCall.entries, drafted]
  | cons call calls ih =>
    rw [List.foldl_cons]
    cases call with
    | item marker indent text =>
      have grown : (draft.addItem marker indent text).items =
          ⟨(enter indent draft.levels).length - 1, marker.isOrdered, [text]⟩ :: item :: rest :=
        congrArg (List.cons _) last
      rw [give, ih _ _ _ grown]
      simp [addItem, ListCall.lines, ListCall.entries, drafted]
    | line text =>
      have grown : (draft.addLine text).items =
          { item with lines := item.lines ++ [text] } :: rest := by simp [addLine, last]
      have levels : (draft.addLine text).levels = draft.levels := by simp [addLine, last]
      rw [give, ih _ _ rest grown, levels]
      simp [ListCall.lines, ListCall.entries]
    | blank =>
      rw [give, ih draft.addBlank item rest last]
      rfl

theorem items_after (marker : ListMarker) (indent : Nat) (text : Text) (calls : List ListCall) :
    (after marker indent text calls).items.reverse =
      drafted [] (ListCall.entries (.item marker indent text :: calls)) := by
  rw [after, items_give calls (start marker indent text) _ [] rfl]
  rfl

theorem ordered_after (marker : ListMarker) (indent : Nat) (text : Text) (calls : List ListCall) :
    (after marker indent text calls).ordered = marker.isOrdered := by
  have given (draft : ListDraft) (call : ListCall) : (draft.give call).ordered = draft.ordered := by
    cases call with
    | line text =>
      rw [give, addLine]
      split <;> rfl
    | _ => rfl
  have all (draft : ListDraft) : (calls.foldl give draft).ordered = draft.ordered := by
    induction calls generalizing draft with
    | nil => rfl
    | cons call calls ih => rw [List.foldl_cons, ih, given]
  exact all _

/-! ## The items -/

theorem getElem?_drafted (before : List Nat) (entries : List ListEntry) (n : Nat) :
    (drafted (levelsAfter before before.length) entries)[n]? =
      entries[n]?.map fun e =>
        ⟨depthAt (before ++ entries.map ListEntry.indent) (before.length + n),
          e.marker.isOrdered, e.lines⟩ := by
  induction entries generalizing before n with
  | nil => rfl
  | cons e rest ih =>
    have here : (before ++ [e.indent])[before.length]? = some e.indent := by simp
    have levels : levelsAfter (before ++ [e.indent]) (before ++ [e.indent]).length =
        enter e.indent (levelsAfter before before.length) := by
      rw [List.length_append, List.length_singleton, levelsAfter_enter here,
        levelsAfter_append _ (Nat.le_refl _)]
    have indents : before ++ (e :: rest).map ListEntry.indent =
        before ++ [e.indent] ++ rest.map ListEntry.indent := by simp
    rw [drafted, indents]
    cases n with
    | zero =>
      rw [depthAt, levelsAfter_append _ (by simp), Nat.add_zero, levelsAfter_enter here,
        levelsAfter_append _ (Nat.le_refl _)]
      rfl
    | succ n =>
      rw [List.getElem?_cons_succ, List.getElem?_cons_succ, ← levels, ih]
      simp [Nat.add_assoc, Nat.add_comm 1 n]

theorem toNode_after (marker : ListMarker) (indent : Nat) (text : Text) (calls : List ListCall) :
    (after marker indent text calls).toNode = .list marker.isOrdered
      ((drafted [] (ListCall.entries (.item marker indent text :: calls))).map itemOf) := by
  rw [toNode, ordered_after, items_after]

theorem contents_drafted (levels : List Nat) (entries : List ListEntry) :
    ((drafted levels entries).map fun item => (item.ordered, item.lines)) =
      entries.map fun e => (e.marker.isOrdered, e.lines) := by
  induction entries generalizing levels with
  | nil => rfl
  | cons e rest ih => rw [drafted, List.map_cons, List.map_cons, ih]

/-- The depths of items with these indents. -/
def depths (indents : List Nat) : List Nat := indents.mapIdx fun n _ => depthAt indents n

theorem getElem?_depths {indents : List Nat} {n indent : Nat} (here : indents[n]? = some indent) :
    (depths indents)[n]? = some (depthAt indents n) := by
  rw [depths, List.getElem?_mapIdx, here]
  rfl

theorem getElem?_depths_eq_some {indents : List Nat} {n depth : Nat}
    (there : (depths indents)[n]? = some depth) :
    ∃ indent, indents[n]? = some indent ∧ depthAt indents n = depth := by
  rw [depths, List.getElem?_mapIdx] at there
  exact Option.map_eq_some_iff.1 there

theorem depths_drafted (entries : List ListEntry) :
    (drafted [] entries).map DraftItem.depth = depths (entries.map ListEntry.indent) := by
  apply List.ext_getElem?
  intro n
  have there : (drafted [] entries)[n]? = _ := getElem?_drafted [] entries n
  rw [List.nil_append, List.length_nil, Nat.zero_add] at there
  rw [List.getElem?_map, there, depths, List.getElem?_mapIdx, List.getElem?_map, Option.map_map,
    Option.map_map]
  rfl

end ListDraft

/-! ## Depths and indents -/

/-- Whether items with these indents stand at depths that follow from them. -/
structure FollowIndents (indents depths : List Nat) : Prop where
  first : depths[0]? = some 0
  /-- No item is more than one level deeper than the one before it. -/
  gradual : ∀ n c d : Nat, depths[n]? = some c → depths[n + 1]? = some d → d ≤ c + 1
  level : ∀ n i : Nat, indents[n]? = some i → indents[n + 1]? = some i →
    depths[n + 1]? = depths[n]?
  dedent : ∀ n i j c d : Nat, indents[n]? = some i → indents[n + 1]? = some j → j < i →
    depths[n]? = some c → depths[n + 1]? = some d → d ≤ c
  /-- What is indented further in between does not change the depth of an indent. -/
  back : ∀ p q i : Nat, p < q → indents[p]? = some i → indents[q]? = some i →
    (∀ n j : Nat, p < n → n < q → indents[n]? = some j → i < j) → depths[q]? = depths[p]?

namespace ListDraft

theorem followIndents_depths {indents : List Nat} {first : Nat}
    (start : indents[0]? = some first) : FollowIndents indents (depths indents) where
  first := by rw [getElem?_depths start, depthAt_zero start]
  gradual n c d there after := by
    obtain ⟨i, here, rfl⟩ := getElem?_depths_eq_some there
    obtain ⟨j, next, rfl⟩ := getElem?_depths_eq_some after
    exact depthAt_succ_le start here next
  level n i here next := by
    have between (k j : Nat) (behind : n < k) (before : k < n + 1)
        (_ : indents[k]? = some j) : i ≤ j := by omega
    rw [getElem?_depths here, getElem?_depths next,
      depthAt_of_return start (Nat.lt_succ_self n) here next between]
  dedent n i j c d here next less there after := by
    obtain ⟨-, -, rfl⟩ := getElem?_depths_eq_some there
    obtain ⟨-, -, rfl⟩ := getElem?_depths_eq_some after
    exact depthAt_succ_of_le start here next (Nat.le_of_lt less)
  back p q i order here there between := by
    have further (k j : Nat) (behind : p < k) (before : k < q) (next : indents[k]? = some j) :
        i ≤ j := Nat.le_of_lt (between k j behind before next)
    rw [getElem?_depths here, getElem?_depths there,
      depthAt_of_return start order here there further]

end ListDraft

/-- The items of a list say what was given, each at the depth of its place. -/
theorem ListDraft.exists_items (marker : ListMarker) (indent : Nat) (text : Text)
    (calls : List ListCall) :
    let entries := ListCall.entries (.item marker indent text :: calls)
    ∃ items, (after marker indent text calls).toNode = .list marker.isOrdered items ∧
      (items.map fun item => (item.ordered, item.body)) =
        (entries.map fun e => (e.marker.isOrdered, Inline.parse (Text.unlines e.lines))) ∧
      items.map ListItem.depth = depths (entries.map ListEntry.indent) := by
  intro entries
  refine ⟨_, toNode_after marker indent text calls, ?_, ?_⟩
  · have contents := congrArg (List.map fun p : Bool × List Text =>
      (p.1, Inline.parse (Text.unlines p.2))) (contents_drafted [] entries)
    rw [List.map_map, List.map_map] at contents
    rw [List.map_map]
    exact contents
  · rw [List.map_map]
    exact depths_drafted entries

/-- A list has one item for each that it was given, in order and with its lines, and the depths of
the items follow from their indents. -/
theorem items_follow_indents (marker : ListMarker) (indent : Nat) (text : Text)
    (calls : List ListCall) :
    let entries := ListCall.entries (.item marker indent text :: calls)
    ∃ items, (ListDraft.after marker indent text calls).toNode = .list marker.isOrdered items ∧
      (items.map fun item => (item.ordered, item.body)) =
        (entries.map fun e => (e.marker.isOrdered, Inline.parse (Text.unlines e.lines))) ∧
      FollowIndents (entries.map ListEntry.indent) (items.map ListItem.depth) := by
  intro entries
  obtain ⟨items, node, contents, depths⟩ := ListDraft.exists_items marker indent text calls
  refine ⟨items, node, contents, ?_⟩
  rw [depths]
  exact ListDraft.followIndents_depths rfl

/-- An item that is indented further than the one before it stands one level deeper, unless it is
indented no further than the first item: then both stand on the outermost level. -/
theorem deeper_item_opens_level (marker : ListMarker) (indent : Nat) (text : Text)
    (calls : List ListCall) :
    let entries := ListCall.entries (.item marker indent text :: calls)
    let indents := entries.map ListEntry.indent
    ∃ items, (ListDraft.after marker indent text calls).toNode = .list marker.isOrdered items ∧
      items.length = entries.length ∧
      ∀ n i j c d : Nat, indents[n]? = some i → indents[n + 1]? = some j → i < j →
        (items.map ListItem.depth)[n]? = some c → (items.map ListItem.depth)[n + 1]? = some d →
        if indent < j then d = c + 1 else c = 0 ∧ d = 0 := by
  intro entries indents
  have start : indents[0]? = some indent := rfl
  obtain ⟨items, node, contents, depths⟩ := ListDraft.exists_items marker indent text calls
  refine ⟨items, node, by simpa using congrArg List.length contents, ?_⟩
  intro n i j c d here next further there after
  rw [depths] at there after
  obtain ⟨-, -, rfl⟩ := ListDraft.getElem?_depths_eq_some there
  obtain ⟨-, -, rfl⟩ := ListDraft.getElem?_depths_eq_some after
  split
  · next deeper => exact ListDraft.depthAt_succ_of_lt start here next further deeper
  · next shallow =>
    exact ⟨ListDraft.depthAt_of_le_first start here (by omega),
      ListDraft.depthAt_of_le_first start next (by omega)⟩

/-- Behind an item that is indented less than the first, one that is indented further need not open
a level. -/
theorem outdentedItem_opens_none :
    let calls : List ListCall := [.item .bullet 0 ['b'], .item .bullet 1 ['c']]
    let indents := (ListCall.entries (.item .bullet 2 ['a'] :: calls)).map ListEntry.indent
    ∃ items, (ListDraft.after .bullet 2 ['a'] calls).toNode = .list false items ∧
      ¬∀ n i j c d : Nat, indents[n]? = some i → indents[n + 1]? = some j → i < j →
        (items.map ListItem.depth)[n]? = some c → (items.map ListItem.depth)[n + 1]? = some d →
        d = c + 1 := by
  intro calls indents
  refine ⟨_, ListDraft.toNode_after _ _ _ _, ?_⟩
  intro opens
  have deeper : 0 = 0 + 1 := opens 1 0 1 0 0 rfl rfl Nat.zero_lt_one rfl rfl
  cases deeper

end DocComment
