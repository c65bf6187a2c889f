import DocComment.Markup.Node

/-!
# Tags in running text

A tag has a name in lower case and attributes whose values are quoted or bare. Some names
stand for a style.
-/

set_option autoImplicit false

namespace DocComment

namespace Style

def ofTag? (name : Text) : Option Style :=
  if name = "i".toList ∨ name = "em".toList then some emphasis
  else if name = "b".toList ∨ name = "strong".toList then some strong
  else if name = "s".toList ∨ name = "strike".toList ∨ name = "del".toList then
    some strikethrough
  else if name = "u".toList then some underline
  else if name = "sub".toList then some subscript
  else if name = "sup".toList then some superscript
  else if name = "small".toList then some small
  else if name = "center".toList then some center
  else none

end Style

structure Tag where
  name : Text
  closing : Bool
  /-- Everything after the name. -/
  attributes : Text
  deriving DecidableEq

namespace Tag

/-- The tag that a text writes. -/
def read? (t : Text) : Option Tag := do
  let inner ← Text.dropPrefix? ['<'] t
  let inner ← Text.dropSuffix? ['>'] inner
  let inner := (Text.dropSuffix? ['/'] inner).getD inner
  let body := (Text.dropPrefix? ['/'] inner).getD inner
  let name := body.takeWhile Char.isAlphanum
  if name.isEmpty then none
  else some ⟨Text.lower name, inner.head? = some '/', body.dropWhile Char.isAlphanum⟩

def closes (tag : Tag) (name : Text) : Bool := tag.closing && tag.name == name

/-! ## Attributes -/

structure Attribute where
  key : Text
  value : Text
  deriving DecidableEq

def isKeyStart (c : Char) : Bool := c.isAlpha || c == '_' || c == ':'

def isKeyChar (c : Char) : Bool :=
  c.isAlphanum || c == '-' || c == '_' || c == ':' || c == '.'

def isBareChar (c : Char) : Bool := !Text.isSpace c && c != '"' && c != '\'' && c != '>'

/-- A value between quotes, or a run of characters that are none of quotes, spaces and
`>`, and how many characters of the text belong to it. -/
def value? (t : Text) : Option (Text × Nat) :=
  let quoted (mark : Char) (inner : Text) :=
    (Text.splitFirst? (· == mark) inner).map fun split => (split.1, split.1.length + 2)
  match t with
  | '"' :: inner => quoted '"' inner
  | '\'' :: inner => quoted '\'' inner
  | _ =>
    let bare := t.takeWhile isBareChar
    if bare.isEmpty then none else some (bare, bare.length)

/-- The attribute that starts with `c` before `t`, and how many characters of `t` it takes. -/
def attributeAt? (c : Char) (t : Text) : Option (Attribute × Nat) :=
  if isKeyStart c then
    let key := t.takeWhile isKeyChar
    let afterKey := t.dropWhile isKeyChar
    match Text.trimStart afterKey with
    | '=' :: rest =>
      let value := Text.trimStart rest
      (value? value).map fun read =>
        (⟨c :: key, read.1⟩, t.length - value.length + read.2)
    | _ => none
  else none

/-- The attributes in a text, from left to right. -/
def attributesIn : Text → List Attribute
  | [] => []
  | c :: t =>
    match attributeAt? c t with
    | some (read, n) => read :: attributesIn (t.drop n)
    | none => attributesIn t
termination_by t => t.length
decreasing_by
  · simp only [List.length_drop, List.length_cons]
    omega
  · exact Nat.lt_succ_self _

/-- The value of the first attribute with this key, in any letter case. -/
def valueOf? (tag : Tag) (key : Text) : Option Text :=
  ((attributesIn tag.attributes).find? fun a => Text.lower a.key == Text.lower key).map
    Attribute.value

end Tag

end DocComment
