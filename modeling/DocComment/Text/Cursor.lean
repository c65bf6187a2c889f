import DocComment.Text.Basic

/-!
# Byte cursors

A cursor stands at a byte of a text, possibly inside a character or past the end. What it
reads are bytes; the text from a position on exists only where a character begins.
-/

set_option autoImplicit false

namespace DocComment.Text

/-- The UTF-8 encoding of a text. -/
def utf8 (t : Text) : List UInt8 := t.flatMap String.utf8EncodeChar

structure Cursor where
  text : Text
  position : Nat
  deriving DecidableEq

namespace Cursor

def start (t : Text) : Cursor := ⟨t, 0⟩

def atEnd (c : Cursor) : Bool := bytes c.text ≤ c.position

/-- The byte at the cursor. -/
def peek (c : Cursor) : Option UInt8 := (utf8 c.text)[c.position]?

/-- The byte before the cursor. -/
def previous (c : Cursor) : Option UInt8 :=
  match c.position with
  | 0 => none
  | n + 1 => (utf8 c.text)[n]?

def advance (c : Cursor) (n : Nat) : Cursor := { c with position := c.position + n }

/-- Reads one byte; at the end nothing is read and the cursor stays. -/
def next (c : Cursor) : Option UInt8 × Cursor :=
  match c.peek with
  | some byte => (some byte, c.advance 1)
  | none => (none, c)

/-- The text from the cursor on; empty past the end and inside a character. -/
def rest (c : Cursor) : Text := (dropBytes? c.position c.text).getD []

/-- The bytes from the cursor on; none past the end. -/
def bytesFrom? (c : Cursor) : Option (List UInt8) :=
  if c.position ≤ bytes c.text then some ((utf8 c.text).drop c.position) else none

def startsWith (c : Cursor) (pattern : Text) : Bool :=
  c.bytesFrom?.any fun rest => (utf8 pattern).isPrefixOf rest

/-- The ASCII lower case of a byte. -/
def lowerByte (byte : UInt8) : UInt8 := if 65 ≤ byte && byte ≤ 90 then byte + 32 else byte

def startsWithIgnoringCase (c : Cursor) (pattern : Text) : Bool :=
  c.bytesFrom?.any fun rest =>
    ((utf8 pattern).map lowerByte).isPrefixOf (rest.map lowerByte)

/-- Reads bytes as long as `p` accepts them; what is read is a text only if it starts and
ends between characters. -/
def takeWhile (p : UInt8 → Bool) (c : Cursor) : Option Text × Cursor :=
  let n := (((utf8 c.text).drop c.position).takeWhile p).length
  (slice? c.position (c.position + n) c.text, c.advance n)

def isLetter (byte : UInt8) : Bool := 97 ≤ lowerByte byte && lowerByte byte ≤ 122

end Cursor

end DocComment.Text
