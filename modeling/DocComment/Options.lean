import DocComment.Text.Basic

/-!
# Options

Every option has a default, so settings are read one by one over the defaults. A setting
with a known name and a value of the wrong kind is refused; an unknown name is ignored.
-/

set_option autoImplicit false

namespace DocComment

/-- How the brief description is found in a comment that does not mark one. -/
inductive BriefRule where
  /-- Up to the first full stop that a space follows in the first paragraph. -/
  | firstSentence
  | firstParagraph
  deriving DecidableEq

namespace BriefRule

def name : BriefRule → Text
  | firstSentence => "first-sentence".toList
  | firstParagraph => "first-paragraph".toList

def ofName? (name : Text) : Option BriefRule :=
  [firstSentence, firstParagraph].find? fun rule => rule.name == name

end BriefRule

structure Options where
  brief : BriefRule := .firstSentence
  /-- The indent that turns a line outside paragraphs and lists into verbatim text. -/
  verbatimIndent : Nat := 4
  /-- Zero counts as one. -/
  tabWidth : Nat := 4
  /-- Whether groups leave out the symbols without documentation. -/
  hideUndocumented : Bool := false
  deriving DecidableEq

/-- The value of a setting before it is checked. -/
inductive Setting where
  | text (t : Text)
  | number (n : Nat)
  | flag (b : Bool)
  | other
  deriving DecidableEq

namespace Setting

/-- A width or an indent fits into 64 bits. -/
def size? : Setting → Option Nat
  | number n => if n < UInt64.size then some n else none
  | _ => none

def flag? : Setting → Option Bool
  | flag b => some b
  | _ => none

def brief? : Setting → Option BriefRule
  | text t => BriefRule.ofName? t
  | _ => none

end Setting

namespace Options

def set? (options : Options) (name : Text) (value : Setting) : Option Options :=
  if name = "brief".toList then value.brief?.map ({ options with brief := · })
  else if name = "verbatim_indent".toList then
    value.size?.map ({ options with verbatimIndent := · })
  else if name = "tab_width".toList then value.size?.map ({ options with tabWidth := · })
  else if name = "hide_undocumented".toList then
    value.flag?.map ({ options with hideUndocumented := · })
  else some options

def ofSettings? (settings : List (Text × Setting)) : Option Options :=
  settings.foldlM (fun options entry => options.set? entry.1 entry.2) {}

end Options

end DocComment
