import DocComment.Text.Basic

/-!
# Commands

A command is written as a mark, `@` or a backslash, and a name. Block commands start a
new part of a line; every other command stays in the running text.
-/

set_option autoImplicit false

namespace DocComment

namespace Command

def isMark (c : Char) : Bool := c == '@' || c == '\\'

def isNameChar (c : Char) : Bool := c.isAlphanum || c == '_'

/-- The command name at the front of a text: a brace, a formula delimiter, or a word of
ASCII letters, digits and underscores that starts with a letter. -/
def name? : Text → Option Text
  | 'f' :: '[' :: _ => some ['f', '[']
  | 'f' :: ']' :: _ => some ['f', ']']
  | 'f' :: '$' :: _ => some ['f', '$']
  | '{' :: _ => some ['{']
  | '}' :: _ => some ['}']
  | c :: rest => if c.isAlpha then some (c :: rest.takeWhile isNameChar) else none
  | [] => none

end Command

/-- What a block command asks for. -/
inductive BlockCommand where
  | brief
  | details
  | param
  | templateParam
  | returns
  | retval
  | see
  | warning
  | note
  | todo
  | par
  | parBlock
  | endParBlock
  | listItem
  | dotFile
  | defineGroup
  | extendGroup
  | joinGroups
  | openScope
  | closeScope
  | file
  deriving DecidableEq

namespace BlockCommand

/-- Every name of every block command. -/
def names : List (Text × BlockCommand) :=
  [(['{'], openScope), (['}'], closeScope), ("addtogroup".toList, extendGroup),
    ("arg".toList, listItem), ("attention".toList, warning), ("brief".toList, brief),
    ("defgroup".toList, defineGroup), ("details".toList, details), ("dotfile".toList, dotFile),
    ("endparblock".toList, endParBlock), ("file".toList, file), ("ingroup".toList, joinGroups),
    ("li".toList, listItem), ("note".toList, note), ("par".toList, par),
    ("param".toList, param), ("parblock".toList, parBlock), ("result".toList, returns),
    ("return".toList, returns), ("returns".toList, returns), ("retval".toList, retval),
    ("sa".toList, see), ("see".toList, see), ("short".toList, brief), ("todo".toList, todo),
    ("tparam".toList, templateParam), ("warning".toList, warning),
    ("weakgroup".toList, extendGroup)]

def ofName? (name : Text) : Option BlockCommand := names.lookup name

end BlockCommand

end DocComment
