import DocComment.Text.NamedCharacters

/-!
# Character references

A reference is an ampersand, a name or a number, and a semicolon. It stands for one
character, which is not read again; what stands for none is left as it is written.
-/

set_option autoImplicit false

namespace DocComment.Text

/-- The value of a digit in a base up to sixteen. -/
def digitValue? (base : Nat) (c : Char) : Option Nat :=
  let value? :=
    if c.isDigit then some (c.toNat - '0'.toNat)
    else if 'a' ≤ c ∧ c ≤ 'f' then some (c.toNat - 'a'.toNat + 10)
    else if 'A' ≤ c ∧ c ≤ 'F' then some (c.toNat - 'A'.toNat + 10)
    else none
  value?.filter (· < base)

/-- The number that some digits write; none without digits. -/
def numeral? (base : Nat) (digits : Text) : Option Nat :=
  if digits.isEmpty then none
  else digits.foldlM (fun n c => (digitValue? base c).map (base * n + ·)) 0

/-- Controls other than tab, line feed, form feed and carriage return have no number. -/
def isNumbered (n : Nat) : Bool :=
  n.isValidChar && (0x20 ≤ n || n == 0x9 || n == 0xA || n == 0xC || n == 0xD)

/-- One entry of the table of names. -/
def namedEntry? (entry : Text) : Option (Text × Char) := do
  let (name, code) ← splitFirst? (· == '=') entry
  return (name, Char.ofNat (← numeral? 16 code))

def namedCharacters : List (Text × Char) :=
  (words namedCharacterData.toList).filterMap namedEntry?

/-- What the text between the ampersand and the semicolon stands for. -/
def referent? : Text → Option Char
  | '#' :: 'x' :: digits | '#' :: 'X' :: digits =>
    ((numeral? 16 digits).filter isNumbered).map Char.ofNat
  | '#' :: digits => ((numeral? 10 digits).filter isNumbered).map Char.ofNat
  | name => namedCharacters.lookup name

/-- The character of the reference that an ampersand before `t` starts, and how many
characters of `t` belong to it. -/
def reference? (t : Text) : Option (Char × Nat) :=
  let body := t.takeWhile fun c => c != ';' && c != '&'
  if (t.drop body.length).head? = some ';' then
    (referent? body).map fun c => (c, body.length + 1)
  else none

/-- Decodes a text from the left. Its first `skip` characters belong to a reference that
has been decoded already. -/
def decodeFrom : Nat → Text → Text
  | _, [] => []
  | skip + 1, _ :: t => decodeFrom skip t
  | 0, c :: t =>
    match if c = '&' then reference? t else none with
    | some (d, n) => d :: decodeFrom n t
    | none => c :: decodeFrom 0 t

def decodeReferences (t : Text) : Text := decodeFrom 0 t

end DocComment.Text
