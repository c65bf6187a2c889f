import DocComment.Text.Basic

/-!
# Comments

A documentation comment arrives with its leaders, as it stands in the source. Here the
leaders come off line by line, tabs become spaces, the common indent is removed and blank
lines at both ends are dropped.
-/

set_option autoImplicit false

namespace DocComment

/-- A comment without its leaders. -/
structure Comment where
  lines : List Text
  /-- Written after the member that it documents, as `///<` or `/**<`. -/
  trailing : Bool
  deriving DecidableEq

namespace Comment

def isEmpty (comment : Comment) : Bool := comment.lines.all Text.isBlank

/-- What the lines read so far say about the next one. -/
structure Leader where
  trailing : Bool
  inBlock : Bool
  deriving DecidableEq

def Leader.start : Leader := ⟨false, false⟩

def trailingBlockOpeners : List Text := ["/**<".toList, "/*!<".toList]

def trailingLineOpeners : List Text := ["///<".toList, "//!<".toList]

def blockOpeners : List Text := ["/**".toList, "/*!".toList, "/*".toList]

def lineOpeners : List Text := ["///".toList, "//!".toList, "//".toList]

/-- The text after the first of `openers` that it starts with. -/
def afterOpener? (openers : List Text) (t : Text) : Option Text :=
  openers.findSome? (Text.dropPrefix? · t)

/-- Removes the star that decorates a line of a block comment. Two stars open strong
text and stay. -/
def dropStar : Text → Text
  | '*' :: '*' :: rest => '*' :: '*' :: rest
  | '*' :: '/' :: rest => '*' :: '/' :: rest
  | '*' :: rest => rest
  | rest => rest

/-- Takes the opener or the decoration off a line without leading spaces. -/
def stripOpener (leader : Leader) (t : Text) : Leader × Text :=
  match afterOpener? trailingBlockOpeners t with
  | some rest => (⟨true, true⟩, rest)
  | none =>
  match afterOpener? trailingLineOpeners t with
  | some rest => (⟨true, false⟩, rest)
  | none =>
  match afterOpener? blockOpeners t with
  | some rest => ({ leader with inBlock := true }, rest)
  | none =>
  match afterOpener? lineOpeners t with
  | some rest => (leader, rest)
  | none => (leader, if leader.inBlock then dropStar t else t)

/-- Takes the end mark off the last line of a block comment. -/
def stripCloser (leader : Leader) (t : Text) : Leader × Text :=
  if leader.inBlock then
    match Text.dropSuffix? "*/".toList (Text.trimEnd t) with
    | some body => ({ leader with inBlock := false }, body)
    | none => (leader, t)
  else (leader, t)

/-- One line without its leader and without trailing spaces. -/
def stripLine (leader : Leader) (line : Text) : Leader × Text :=
  let opened := stripOpener leader (Text.trimStart line)
  let closed := stripCloser opened.1 opened.2
  (closed.1, Text.trimEnd closed.2)

def stripLines : Leader → List Text → Leader × List Text
  | leader, [] => (leader, [])
  | leader, line :: rest =>
    let here := stripLine leader line
    let later := stripLines here.1 rest
    (later.1, here.2 :: later.2)

/-- Tabs become spaces up to the next multiple of `width`; carriage returns disappear. -/
def detabFrom (width : Nat) : Nat → Text → Text
  | _, [] => []
  | column, c :: rest =>
    if c = '\t' then
      let pad := width - column % width
      List.replicate pad ' ' ++ detabFrom width (column + pad) rest
    else if c = '\r' then detabFrom width column rest
    else c :: detabFrom width (column + 1) rest

def detab (tabWidth : Nat) (t : Text) : Text := detabFrom (max tabWidth 1) 0 t

/-- Removes the common indent; blank lines become empty. -/
def removeIndent (ls : List Text) : List Text :=
  let common := Text.commonIndent ls
  ls.map fun l => if Text.isBlank l then [] else l.drop common

def dropEmptyEnds (ls : List Text) : List Text :=
  ((ls.dropWhile List.isEmpty).reverse.dropWhile List.isEmpty).reverse

/-- The comment that `raw` writes. -/
def ofRaw (tabWidth : Nat) (raw : Text) : Comment :=
  let stripped := stripLines .start (Text.lines raw)
  ⟨dropEmptyEnds (removeIndent (stripped.2.map (detab tabWidth))), stripped.1.trailing⟩

end Comment

end DocComment
