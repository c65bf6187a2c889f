import DocComment.Text.Basic

/-!
# Tags of definition lists

Tags are written in any letter case. A line opens a list if `<dl>` is the first thing on it;
the depth that it leaves behind counts opening against closing tags.
-/

set_option autoImplicit false

namespace DocComment.DefinitionTag

def openList : Text := "<dl>".toList

def closeList : Text := "</dl>".toList

def term : Text := "<dt>".toList

def endTerm : Text := "</dt>".toList

def body : Text := "<dd>".toList

def endBody : Text := "</dd>".toList

def startsList (line : Text) : Bool := Text.startsWithIgnoringCase openList (Text.trimStart line)

/-- How many lists the line opens beyond those it closes. -/
def balance (line : Text) : Int :=
  Text.occurrences openList 0 (Text.lower line) - Text.occurrences closeList 0 (Text.lower line)

end DocComment.DefinitionTag
