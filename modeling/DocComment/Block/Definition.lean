import DocComment.Line.DefinitionTag
import DocComment.Text.Basic

/-!
# Definition lists

Inside the outermost list each term or definition starts with its tag and ends with the next
tag; a list inside a definition stays in it. A definition without a term before it makes an
entry of its own.
-/

set_option autoImplicit false

namespace DocComment

namespace Definition

inductive PartKind where
  | term
  | body
  deriving DecidableEq

structure Part where
  kind : PartKind
  text : Text
  deriving DecidableEq

/-- What a tag inside the outermost list opens, and how many characters it has. -/
def boundary? (t : Text) : Option (Option PartKind × Nat) :=
  let starts := fun tag => Text.startsWithIgnoringCase tag t
  if starts DefinitionTag.term then some (some .term, 4)
  else if starts DefinitionTag.body then some (some .body, 4)
  else if starts DefinitionTag.endTerm then some (none, 5)
  else if starts DefinitionTag.endBody then some (none, 5)
  else none

/-- The text of the part that is open, and the parts after it. -/
structure Scan where
  text : Text
  parts : List Part
  deriving DecidableEq

def Scan.consChar (c : Char) (s : Scan) : Scan := { s with text := c :: s.text }

/-- Ends the open part before a part of this kind, or before text that is in no part. -/
def Scan.cut (kind : Option PartKind) (s : Scan) : Scan :=
  match kind with
  | some .term => ⟨[], ⟨.term, Text.trim s.text⟩ :: s.parts⟩
  | some .body => ⟨[], ⟨.body, s.text⟩ :: s.parts⟩
  | none => ⟨[], s.parts⟩

/-- Reads a text at `depth` open lists. Its first `skip` characters belong to a tag that has
been read already. -/
def scan : Nat → Nat → Text → Scan
  | _, _, [] => ⟨[], []⟩
  | skip + 1, depth, _ :: t => scan skip depth t
  | 0, depth, c :: t =>
    if Text.startsWithIgnoringCase DefinitionTag.openList (c :: t) then
      (scan 0 (depth + 1) t).consChar c
    else if Text.startsWithIgnoringCase DefinitionTag.closeList (c :: t) then
      if depth = 1 then (scan 4 0 t).cut none else (scan 0 (depth - 1) t).consChar c
    else
      match if depth = 1 then boundary? (c :: t) else none with
      | some (kind, n) => (scan (n - 1) depth t).cut kind
      | none => (scan 0 depth t).consChar c

/-- The terms and definitions in a text. -/
def partsOf (t : Text) : List Part := (scan 0 0 t).parts

/-! ## Entries -/

/-- A term and the definitions that follow it. -/
structure Entry where
  term : Text
  bodies : List Text
  deriving DecidableEq

/-- The definitions in front, and the entries after them. -/
def collect : List Part → List Text × List Entry
  | [] => ([], [])
  | ⟨.term, t⟩ :: rest =>
    let (bodies, entries) := collect rest
    ([], ⟨t, bodies⟩ :: entries)
  | ⟨.body, t⟩ :: rest =>
    let (bodies, entries) := collect rest
    (t :: bodies, entries)

def entriesOf (parts : List Part) : List Entry :=
  match collect parts with
  | ([], entries) => entries
  | (bodies, entries) => ⟨[], bodies⟩ :: entries

/-- The bytes of white space in front of a line. -/
def margin (t : Text) : Nat := Text.bytes t - Text.bytes (Text.trimStart t)

/-- The lines of a definition without their common margin and without trailing spaces. -/
def bodyLines (t : Text) : List Text :=
  let ls := Text.lines t
  let common := ((ls.filter fun l => !Text.isBlank l).map margin).min?.getD 0
  ls.map fun l => Text.trimEnd ((Text.dropBytes? common l).getD [])

end Definition

end DocComment
