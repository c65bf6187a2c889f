import DocComment.Text.Basic

/-!
# Addresses in running text

An address starts with `http://` or `https://` and goes on up to a space, an angle or a
square bracket. Punctuation that ends a sentence does not belong to a word; a pair of
parentheses does.
-/

set_option autoImplicit false

namespace DocComment.Url

def isUrlChar (c : Char) : Bool :=
  !Text.isSpace c && c != '<' && c != '>' && c != '[' && c != ']'

/-- How many characters of a text belong to the address that it starts with. -/
def scheme? (t : Text) : Option Nat :=
  let authority (start : Text) :=
    (Text.dropPrefix? start t).bind fun rest =>
      let n := (rest.takeWhile isUrlChar).length
      if n = 0 then none else some (start.length + n)
  (authority "http://".toList).or (authority "https://".toList)

/-- An address and the text between it and the one before. -/
structure Match where
  before : Text
  url : Text
  deriving DecidableEq

/-- The addresses in a text, and the text after the last of them. -/
structure Matches where
  found : List Match
  rest : Text
  deriving DecidableEq

/-- Adds a character in front that belongs to no address. -/
def Matches.consChar (c : Char) : Matches → Matches
  | ⟨[], rest⟩ => ⟨[], c :: rest⟩
  | ⟨first :: more, rest⟩ => ⟨{ first with before := c :: first.before } :: more, rest⟩

/-- Reads a text from the left. Its first `skip` characters belong to an address that has
been found already. -/
def matchesFrom : Nat → Text → Matches
  | _, [] => ⟨[], []⟩
  | skip + 1, _ :: t => matchesFrom skip t
  | 0, c :: t =>
    match scheme? (c :: t) with
    | some n =>
      let later := matchesFrom (n - 1) t
      ⟨⟨[], (c :: t).take n⟩ :: later.found, later.rest⟩
    | none => (matchesFrom 0 t).consChar c

def matchesIn (t : Text) : Matches := matchesFrom 0 t

def isTrailing (c : Char) : Bool := ".,;:!?)".toList.contains c

/-- Where a reversed word stops ending in sentence punctuation. -/
def splitPunctuationRev : Text → Text × Text
  | [] => ([], [])
  | ')' :: '(' :: rest => ([], ')' :: '(' :: rest)
  | c :: rest =>
    if isTrailing c then
      let split := splitPunctuationRev rest
      (c :: split.1, split.2)
    else ([], c :: rest)

/-- A word and the sentence punctuation after it. -/
def splitPunctuation (word : Text) : Text × Text :=
  let split := splitPunctuationRev word.reverse
  (split.2.reverse, split.1.reverse)

end DocComment.Url
