import DocComment.Line.TableRow

/-!
# Markup

A parsed comment is a tree of nodes, blocks and inline markup alike, arranged in sections.
Containers do not care what they contain; only `Node` ties the knot, because documentation
that is copied from elsewhere sits inside the node that asks for it.
-/

set_option autoImplicit false

namespace DocComment

/-! ## Containers -/

structure ListItem (α : Type) where
  depth : Nat
  /-- Items of a nested list may differ from the list in this. -/
  ordered : Bool
  body : List α

structure TableCell (α : Type) where
  /-- The columns covered. -/
  span : Nat
  /-- The rows covered. -/
  rowSpan : Nat
  /-- Whether the cell only continues the one above. -/
  mergedUp : Bool
  body : List α

/-- The columns that some cells cover together. -/
def TableCell.width {α : Type} : List (TableCell α) → Nat
  | [] => 0
  | cell :: rest => cell.span + width rest

structure TableRow (α : Type) where
  header : Bool
  cells : List (TableCell α)

def TableRow.width {α : Type} (row : TableRow α) : Nat := TableCell.width row.cells

structure Table (α : Type) where
  alignment : List Alignment
  rows : List (TableRow α)

def Table.columns {α : Type} (table : Table α) : Nat := table.alignment.length

structure TermEntry (α : Type) where
  term : List α
  definitions : List (List α)

inductive ParamDirection where
  | input
  | output
  | inputOutput
  | unspecified
  deriving DecidableEq

structure ParamEntry (α : Type) where
  name : Text
  direction : ParamDirection
  body : List α

structure RetvalEntry (α : Type) where
  value : Text
  body : List α

inductive AdmonitionKind where
  | warning
  | note
  | todo
  | par
  deriving DecidableEq

structure Admonition (α : Type) where
  kind : AdmonitionKind
  title : Option Text
  body : List α

/-- The sections of a documentation comment. -/
structure Sections (α : Type) where
  brief : Option α := none
  detail : List α := []
  params : List (ParamEntry α) := []
  returns : Option (List α) := none
  retvals : List (RetvalEntry α) := []
  seeAlso : List α := []
  admonitions : List (Admonition α) := []

/-! ## Payloads -/

inductive Style where
  | emphasis
  | strong
  | strikethrough
  | underline
  | subscript
  | superscript
  | small
  | center
  deriving DecidableEq

inductive DiagramContent where
  | dot (source : Text)
  | msc (source : Text)
  /-- A diagram that is kept in a file. -/
  | dotFile (path : Text)
  deriving DecidableEq

structure Diagram where
  content : DiagramContent
  caption : Option Text
  deriving DecidableEq

inductive MarkupLanguage where
  | html
  | xml
  deriving DecidableEq

/-- Whatever a reference can point at, by its position in the model. -/
inductive Target where
  | symbol (index : Nat)
  | group (index : Nat)
  | file (index : Nat)
  | anchor (index : Nat)
  deriving DecidableEq

inductive RefFailure where
  | notFound
  | undocumented
  | cycle
  deriving DecidableEq

/-- How far a reference has been resolved. -/
inductive RefStatus where
  | pending
  | resolved (target : Target) (shown : Text)
  | broken (reason : RefFailure)
  deriving DecidableEq

/-! ## Nodes -/

inductive Node where
  | paragraph (body : List Node)
  | text (t : Text)
  | styled (style : Style) (body : List Node)
  | codeSpan (code : Text)
  | link (url : Text) (body : List Node)
  | list (ordered : Bool) (items : List (ListItem Node))
  | table (table : Table Node)
  | codeBlock (lang : Option Text) (lines : List Text)
  | verbatim (lines : List Text)
  | blockQuote (body : List Node)
  | definitionList (entries : List (TermEntry Node))
  | diagram (diagram : Diagram)
  | formula (latex : Text) (display : Bool)
  | passthrough (language : MarkupLanguage) (raw : Text)
  | crossRef (target : Text) (shown : Option Text) (status : RefStatus)
  /-- Documentation copied from `target`; the content arrives with the resolution. -/
  | copyDoc (target : Text) (status : RefStatus) (content : Option (Sections Node))
  | anchor (name : Text)
  | emoji (name : Text)
  | hardBreak

/-- The documentation of a symbol, a group or a file. -/
abbrev Doc := Sections Node

end DocComment
