import DocComment.Text.Digit

/-!
# List markers

A list item starts with a bullet `-`, `*` or `+`, with `-#`, or with up to nine digits and
a `.` or `)`. Spaces separate the marker from the text; a number may also stand alone.
-/

set_option autoImplicit false

namespace DocComment

inductive ListMarker where
  | bullet
  /-- The ordinal is absent after `-#` and for digits that are not ASCII. -/
  | numbered (ordinal : Option Nat)
  deriving DecidableEq

namespace ListMarker

def isOrdered : ListMarker → Bool
  | bullet => false
  | numbered _ => true

end ListMarker

structure ListLine where
  marker : ListMarker
  indent : Nat
  text : Text
  deriving DecidableEq

namespace ListLine

/-- The text after a marker: at least one space, then anything but a line feed. -/
def textAfter? : Text → Option Text
  | ' ' :: rest =>
    let text := rest.dropWhile (· == ' ')
    if text.contains '\n' then none else some text
  | _ => none

/-- The number at the front of a text and what follows its closing mark. -/
def number? (t : Text) : Option (ListMarker × Text) :=
  let digits := t.takeWhile Text.isDecimalDigit
  if digits.isEmpty || 9 < digits.length then none
  else match t.dropWhile Text.isDecimalDigit with
    | '.' :: rest | ')' :: rest => some (.numbered (Text.number? digits), rest)
    | _ => none

/-- The marker of a line without its indent, and the text of the item. -/
def item? (t : Text) : Option (ListMarker × Text) :=
  match t with
  | '-' :: '#' :: rest => (textAfter? rest).map (.numbered none, ·)
  | '-' :: rest | '*' :: rest | '+' :: rest => (textAfter? rest).map (.bullet, ·)
  | _ =>
    match number? t with
    | none => none
    | some (marker, []) => some (marker, [])
    | some (marker, rest) => (textAfter? rest).map (marker, ·)

def read? (line : Text) : Option ListLine :=
  (item? (line.dropWhile (· == ' '))).map fun item => ⟨item.1, Text.indent line, item.2⟩

end ListLine

end DocComment
