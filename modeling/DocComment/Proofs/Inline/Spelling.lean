import DocComment.Inline.Nodes

/-!
# Spellings

A spelling says how running text is written. In a marked text every style has a tag, and what
could start anything else stands behind a backslash. A typed text has delimiters for the common
styles, and its links are bare addresses.
-/

set_option autoImplicit false

namespace DocComment

structure Spelling where
  text : Text → Text
  opener : Style → Text
  closer : Style → Text
  link (url body : Text) : Text
  codeSpan : Text → Text
  hardBreak : Text

namespace Spelling

mutual

/-- How a node of running text is written; no other node is. -/
def node (s : Spelling) : Node → Text
  | .text t => s.text t
  | .styled style body => s.opener style ++ s.nodes body ++ s.closer style
  | .link url body => s.link url (s.nodes body)
  | .codeSpan code => s.codeSpan code
  | .hardBreak => s.hardBreak
  | _ => []

def nodes (s : Spelling) : List Node → Text
  | [] => []
  | n :: rest => s.node n ++ s.nodes rest

end

theorem nodes_append (s : Spelling) (a b : List Node) :
    s.nodes (a ++ b) = s.nodes a ++ s.nodes b := by
  induction a with
  | nil => rfl
  | cons n rest ih => rw [List.cons_append, nodes, nodes, ih, List.append_assoc]

end Spelling

/-! ## Tags -/

def Style.tagName : Style → Text
  | .emphasis => "em".toList
  | .strong => "b".toList
  | .strikethrough => "s".toList
  | .underline => "u".toList
  | .subscript => "sub".toList
  | .superscript => "sup".toList
  | .small => "small".toList
  | .center => "center".toList

namespace Tag

/-- How a tag is written. -/
def write (tag : Tag) : Text :=
  '<' :: ((if tag.closing then ['/'] else []) ++ tag.name ++ tag.attributes ++ ['>'])

def opens (name : Text) : Tag := ⟨name, false, []⟩

def ends (name : Text) : Tag := ⟨name, true, []⟩

def linkTo (url : Text) : Tag := ⟨['a'], false, " href=\"".toList ++ url ++ ['"']⟩

end Tag

/-! ## Marked text -/

/-- The characters that a backslash stands before in marked text. -/
def Text.escaped : Text := "@\\&$#<>%.|\"~:".toList

theorem Text.mem_escaped {c : Char} : c ∈ Text.escaped ↔ InlineToken.isEscapable c = true :=
  List.contains_iff_mem.symm

def Text.escape (t : Text) : Text :=
  t.flatMap fun c => if Text.escaped.contains c then ['\\', c] else [c]

def Spelling.marked : Spelling where
  text := Text.escape
  opener style := (Tag.opens style.tagName).write
  closer style := (Tag.ends style.tagName).write
  link url body := (Tag.linkTo url).write ++ body ++ (Tag.ends ['a']).write
  codeSpan code := '\x60' :: code ++ ['\x60']
  hardBreak := (Tag.opens "br".toList).write

/-! ## Typed text -/

/-- What is typed on both sides of a styled text; styles that have no delimiter have tags alone. -/
def Style.delimiter? : Style → Option Text
  | .strong => some ['*', '*']
  | .emphasis => some ['*']
  | .strikethrough => some ['~', '~']
  | _ => none

def Spelling.typed : Spelling where
  text := id
  opener style := style.delimiter?.getD (Tag.opens style.tagName).write
  closer style := style.delimiter?.getD (Tag.ends style.tagName).write
  link url _ := url
  codeSpan code := '\x60' :: code ++ ['\x60']
  hardBreak := (Tag.opens "br".toList).write

end DocComment
