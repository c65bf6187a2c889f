import DocComment.Inline.Nodes
import DocComment.Line.ListMarker

/-!
# Lists

The depth of an item follows from its indent and the indents of the levels that are still
open. An item opens at most one level, however far it is indented.
-/

set_option autoImplicit false

namespace DocComment

structure DraftItem where
  depth : Nat
  ordered : Bool
  lines : List Text
  deriving DecidableEq

/-- A list that is still open. -/
structure ListDraft where
  ordered : Bool
  /-- The indents of the open levels, the innermost first. -/
  levels : List Nat
  /-- The items, the last first. -/
  items : List DraftItem
  /-- Whether a blank line follows the last item. -/
  afterBlank : Bool
  deriving DecidableEq

namespace ListDraft

/-- Leaves the levels that are indented further than `indent`, but not the outermost. -/
def leave (indent : Nat) : List Nat → List Nat
  | inner :: outer :: rest =>
    if indent < inner then leave indent (outer :: rest) else inner :: outer :: rest
  | levels => levels

/-- The levels that are open at an item. -/
def enter (indent : Nat) (levels : List Nat) : List Nat :=
  match leave indent levels with
  | [] => [indent]
  | inner :: rest => if indent ≤ inner then inner :: rest else indent :: inner :: rest

def addItem (draft : ListDraft) (marker : ListMarker) (indent : Nat) (text : Text) : ListDraft :=
  let levels := enter indent draft.levels
  { draft with
    levels
    items := ⟨levels.length - 1, marker.isOrdered, [text]⟩ :: draft.items
    afterBlank := false }

def start (marker : ListMarker) (indent : Nat) (text : Text) : ListDraft :=
  addItem ⟨marker.isOrdered, [], [], false⟩ marker indent text

/-- A line of text that belongs to the last item. -/
def addLine (draft : ListDraft) (text : Text) : ListDraft :=
  match draft.items with
  | [] => draft
  | item :: rest => { draft with items := { item with lines := item.lines ++ [text] } :: rest }

def addBlank (draft : ListDraft) : ListDraft := { draft with afterBlank := true }

def itemOf (item : DraftItem) : ListItem Node :=
  ⟨item.depth, item.ordered, Inline.parse (Text.unlines item.lines)⟩

def toNode (draft : ListDraft) : Node :=
  .list draft.ordered (draft.items.reverse.map itemOf)

end ListDraft

end DocComment
