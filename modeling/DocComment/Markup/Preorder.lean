import DocComment.Markup.Node

/-!
# Markup in preorder

A node and everything inside it in document order, parents first. Copied documentation
belongs to the comment that it was copied from and is not entered. Edits take the nodes in
the same order.
-/

set_option autoImplicit false

namespace DocComment

namespace Node

mutual

def preorder : Node → List Node
  | .paragraph body => .paragraph body :: preorderAll body
  | .styled style body => .styled style body :: preorderAll body
  | .link url body => .link url body :: preorderAll body
  | .blockQuote body => .blockQuote body :: preorderAll body
  | .list ordered items => .list ordered items :: preorderItems items
  | .table ⟨alignment, rows⟩ => .table ⟨alignment, rows⟩ :: preorderRows rows
  | .definitionList entries => .definitionList entries :: preorderEntries entries
  | node => [node]

def preorderAll : List Node → List Node
  | [] => []
  | node :: rest => preorder node ++ preorderAll rest

def preorderItems : List (ListItem Node) → List Node
  | [] => []
  | ⟨_, _, body⟩ :: rest => preorderAll body ++ preorderItems rest

def preorderRows : List (TableRow Node) → List Node
  | [] => []
  | ⟨_, cells⟩ :: rest => preorderCells cells ++ preorderRows rest

def preorderCells : List (TableCell Node) → List Node
  | [] => []
  | ⟨_, _, _, body⟩ :: rest => preorderAll body ++ preorderCells rest

def preorderEntries : List (TermEntry Node) → List Node
  | [] => []
  | ⟨term, definitions⟩ :: rest =>
    preorderAll term ++ preorderBodies definitions ++ preorderEntries rest

def preorderBodies : List (List Node) → List Node
  | [] => []
  | body :: rest => preorderAll body ++ preorderBodies rest

end

section

variable {m : Type → Type} [Monad m] (f : Node → m Node)

mutual

/-- Calls `f` on every node in preorder. A container keeps what it is and its contents are
edited; any other node is replaced by what `f` returns. -/
def edit : Node → m Node
  | .paragraph body => do
    let _ ← f (.paragraph body)
    return .paragraph (← editAll body)
  | .styled style body => do
    let _ ← f (.styled style body)
    return .styled style (← editAll body)
  | .link url body => do
    let _ ← f (.link url body)
    return .link url (← editAll body)
  | .blockQuote body => do
    let _ ← f (.blockQuote body)
    return .blockQuote (← editAll body)
  | .list ordered items => do
    let _ ← f (.list ordered items)
    return .list ordered (← editItems items)
  | .table ⟨alignment, rows⟩ => do
    let _ ← f (.table ⟨alignment, rows⟩)
    return .table ⟨alignment, ← editRows rows⟩
  | .definitionList entries => do
    let _ ← f (.definitionList entries)
    return .definitionList (← editEntries entries)
  | node => f node

def editAll : List Node → m (List Node)
  | [] => return []
  | node :: rest => return (← edit node) :: (← editAll rest)

def editItems : List (ListItem Node) → m (List (ListItem Node))
  | [] => return []
  | ⟨depth, ordered, body⟩ :: rest =>
    return ⟨depth, ordered, ← editAll body⟩ :: (← editItems rest)

def editRows : List (TableRow Node) → m (List (TableRow Node))
  | [] => return []
  | ⟨header, cells⟩ :: rest => return ⟨header, ← editCells cells⟩ :: (← editRows rest)

def editCells : List (TableCell Node) → m (List (TableCell Node))
  | [] => return []
  | ⟨span, rowSpan, mergedUp, body⟩ :: rest =>
    return ⟨span, rowSpan, mergedUp, ← editAll body⟩ :: (← editCells rest)

def editEntries : List (TermEntry Node) → m (List (TermEntry Node))
  | [] => return []
  | ⟨term, definitions⟩ :: rest =>
    return ⟨← editAll term, ← editBodies definitions⟩ :: (← editEntries rest)

def editBodies : List (List Node) → m (List (List Node))
  | [] => return []
  | body :: rest => return (← editAll body) :: (← editBodies rest)

end

end

/-- The text that a single node shows, apart from what is inside it. -/
def ownText : Node → Text
  | .text t | .codeSpan t => t
  | .hardBreak => ['\n']
  | .crossRef target shown _ => shown.getD target
  | _ => []

/-- The text of a node and everything inside it, without formatting. -/
def plainText (node : Node) : Text := node.preorder.flatMap ownText

end Node

end DocComment
