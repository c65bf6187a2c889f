import DocComment.Line.Token

/-!
# Reading a comment token by token

All lines are checked before the first token is read. A tokenizer then holds the lines it
has not read, the fence that is open and the tokens that are read but not handed out; it can
be sent back to the first line at any time.
-/

set_option autoImplicit false

namespace DocComment

/-- A control character other than the tab, which no line may hold. -/
structure ControlCharacter where
  line : Nat
  found : Char
  deriving DecidableEq

namespace ControlCharacter

/-- The first one in some lines, the first of which has the number `line`. -/
def find? (line : Nat) : List Text → Option ControlCharacter
  | [] => none
  | t :: rest =>
    match t.find? fun c => Text.isControl c && c != '\t' with
    | some found => some ⟨line, found⟩
    | none => find? (line + 1) rest

/-- How a control character is shown. -/
def escape (c : Char) : Text :=
  if c = '\x00' then "\\0".toList
  else if c = '\n' then "\\n".toList
  else if c = '\r' then "\\r".toList
  else "\\u\x7b".toList ++ Nat.toDigits 16 c.toNat ++ "\x7d".toList

def message (error : ControlCharacter) : Text :=
  "line ".toList ++ Nat.toDigits 10 error.line ++ ": unrecognized control character '".toList ++
    escape error.found ++ "'".toList

end ControlCharacter

namespace Token

/-- The tokens of a whole line. -/
def ofLine (line : Nat) (fence : Option Fence) (t : Text) : List Token × Option Fence :=
  if fence.isNone && Text.isBlank t then ([⟨line, .blank, t⟩], none) else scan line fence t

/-- The tokens of lines that start at number `line`. A fence that is open at the end is
closed there. -/
def ofLines (line : Nat) (fence : Option Fence) : List Text → List Token
  | [] =>
    match fence with
    | some fence => [⟨line, .fenceClose fence true, []⟩]
    | none => []
  | t :: rest =>
    let here := ofLine line fence t
    here.1 ++ ofLines (line + 1) here.2 rest

end Token

/-- The tokens of a comment. -/
def tokenize (lines : List Text) : Except ControlCharacter (List Token) :=
  match ControlCharacter.find? 0 lines with
  | some error => .error error
  | none => .ok (Token.ofLines 0 none lines)

structure Tokenizer where
  lines : List Text
  unread : List Text
  /-- The number of the first unread line. -/
  line : Nat
  fence : Option Fence
  /-- Tokens that are read and not yet handed out. -/
  pending : List Token
  deriving DecidableEq

namespace Tokenizer

/-- A tokenizer before its first line. -/
def start (lines : List Text) : Tokenizer := ⟨lines, lines, 0, none, []⟩

def ofLines (lines : List Text) : Except ControlCharacter Tokenizer :=
  match ControlCharacter.find? 0 lines with
  | some error => .error error
  | none => .ok (start lines)

def restart (s : Tokenizer) : Tokenizer := start s.lines

/-- Everything still to be handed out. -/
def remaining (s : Tokenizer) : List Token :=
  s.pending ++ Token.ofLines s.line s.fence s.unread

/-- Reads the unread lines up to the first that gives a token. -/
def readLine (lines : List Text) (line : Nat) (fence : Option Fence) :
    List Text → Option Token × Tokenizer
  | [] =>
    (fence.map fun fence => ⟨line, .fenceClose fence true, []⟩, ⟨lines, [], line, none, []⟩)
  | t :: rest =>
    let here := Token.ofLine line fence t
    match here.1 with
    | [] => readLine lines (line + 1) here.2 rest
    | token :: pending => (some token, ⟨lines, rest, line + 1, here.2, pending⟩)

def next (s : Tokenizer) : Option Token × Tokenizer :=
  match s.pending with
  | token :: pending => (some token, { s with pending := pending })
  | [] => readLine s.lines s.line s.fence s.unread

/-- The tokenizer after everything has been handed out. -/
def drained (s : Tokenizer) : Tokenizer :=
  ⟨s.lines, [], s.line + s.unread.length, none, []⟩

end Tokenizer

end DocComment
