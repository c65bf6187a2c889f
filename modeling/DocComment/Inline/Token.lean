import DocComment.Line.Command

/-!
# Inline tokens

Paragraph text is cut into tokens without losing a character. At each place the longest
token is taken; what starts no token is text. Tokens know nothing of their surroundings:
whether a star opens a span is decided later.
-/

set_option autoImplicit false

namespace DocComment

inductive InlineToken.Kind where
  /-- Spaces and tabs. -/
  | spaces
  | lineBreak
  /-- A command mark and a character that it makes literal. -/
  | escape
  /-- The delimiter of a formula inside a line. -/
  | formulaMark
  | command
  | tag
  | codeMark
  | doubleStar
  | star
  | doubleTilde
  | quote
  | text
  /-- A mark that starts nothing. -/
  | lone
  deriving DecidableEq

/-- Whether tokens of this kind separate words. -/
def InlineToken.Kind.isSpace (kind : Kind) : Bool := kind == .spaces || kind == .lineBreak

structure InlineToken where
  kind : InlineToken.Kind
  text : Text
  deriving DecidableEq

namespace InlineToken

def isBlankChar (c : Char) : Bool := c == ' ' || c == '\t'

/-- The characters that a command mark makes literal. -/
def isEscapable (c : Char) : Bool := "@\\&$#<>%.|\"~:".toList.contains c

def isTextChar (c : Char) : Bool := !Text.isSpace c && !"@\\<\x60*~\"".toList.contains c

/-- The token that a command mark starts, and how many characters after the mark it takes. -/
def afterMark : Text → Kind × Nat
  | [] => (.lone, 0)
  | c :: t =>
    if isEscapable c then (.escape, 1)
    else if c = 'f' ∧ t.head? = some '$' then (.formulaMark, 2)
    else if c.isAlpha || c == '_' then
      (.command, 1 + (t.takeWhile Command.isNameChar).length)
    else (.lone, 0)

/-- The same for a tag name that starts with a letter, after `<` or `</`. A tag that does
not end as it should is text up to where it goes wrong. -/
def afterTagStart (t : Text) : Kind × Nat :=
  let name := (t.takeWhile Char.isAlphanum).length
  match t.drop name with
  | '>' :: _ => (.tag, name + 1)
  | '/' :: '>' :: _ => (.tag, name + 2)
  | c :: rest =>
    if Text.isSpace c then
      let inner := ((c :: rest).takeWhile fun d => d != '<' && d != '>').length
      if ((c :: rest).drop inner).head? = some '>' then (.tag, name + inner + 1)
      else (.text, name + inner)
    else (.text, name)
  | [] => (.text, name)

/-- The same after `<`. -/
def afterAngle : Text → Kind × Nat
  | '/' :: c :: t =>
    if c.isAlpha then
      let tag := afterTagStart (c :: t)
      (tag.1, 1 + tag.2)
    else (.lone, 0)
  | c :: t => if c.isAlpha then afterTagStart (c :: t) else (.lone, 0)
  | [] => (.lone, 0)

/-- The kind of the token that starts with `c` before `t`, and how many characters of `t`
it takes. -/
def shape (c : Char) (t : Text) : Kind × Nat :=
  if isBlankChar c then (.spaces, (t.takeWhile isBlankChar).length)
  else if c = '\n' then (.lineBreak, 0)
  else if c = '\r' ∧ t.head? = some '\n' then (.lineBreak, 1)
  else if Command.isMark c then afterMark t
  else if c = '<' then afterAngle t
  else if c = '\x60' then (.codeMark, 0)
  else if c = '*' then if t.head? = some '*' then (.doubleStar, 1) else (.star, 0)
  else if c = '~' then if t.head? = some '~' then (.doubleTilde, 1) else (.lone, 0)
  else if c = '"' then (.quote, 0)
  else if Text.isSpace c then (.text, 0)
  else (.text, (t.takeWhile isTextChar).length)

/-- The tokens of a text. -/
def lex : Text → List InlineToken
  | [] => []
  | c :: t =>
    let here := shape c t
    ⟨here.1, c :: t.take here.2⟩ :: lex (t.drop here.2)
termination_by t => t.length
decreasing_by
  simp only [List.length_drop, List.length_cons]
  omega

/-- The text of several tokens. -/
def join (tokens : List InlineToken) : Text := tokens.flatMap InlineToken.text

theorem join_lex (t : Text) : join (lex t) = t := by
  fun_induction lex t with
  | case1 => rfl
  | case2 c t here ih =>
    simp only [join, List.flatMap_cons] at ih ⊢
    rw [ih, List.cons_append, List.take_append_drop]

end InlineToken

end DocComment
