import DocComment.Markup.Node

/-!
# Diagnostics

What can be wrong with a comment or a corpus, where, and how it is worded. None of it stops
a run.
-/

set_option autoImplicit false

namespace DocComment

def RefFailure.message : RefFailure → Text
  | notFound => "no such symbol, group or anchor".toList
  | undocumented => "target has no documentation".toList
  | cycle => "@copydoc cycle".toList

inductive Problem where
  | tableWidth (expected found : Nat)
  | unclosedFence (fence : Text)
  | unclosedDefinitionList
  /-- A second documentation of the same thing. -/
  | alreadyDocumented (subject : Text)
  | secondParent (group kept rejected : Text)
  | unknownGroup (group : Text)
  | unresolved (target : Text) (reason : RefFailure)
  | repeatedAnchor (name : Text)
  | unmatchedScope (marker : Char)
  | unreadableFile (reason : Text)
  deriving DecidableEq

inductive Severity where
  | warning
  | error
  deriving DecidableEq

namespace Problem

def severity : Problem → Severity
  | unreadableFile _ => .error
  | _ => .warning

def number (n : Nat) : Text := Nat.toDigits 10 n

def message : Problem → Text
  | tableWidth expected found =>
    "table row has ".toList ++ number found ++ " columns, expected ".toList ++
      number expected ++ "; kept as text".toList
  | unclosedFence fence =>
    "@".toList ++ fence ++ " block not closed before end of comment".toList
  | unclosedDefinitionList => "<dl> not closed before end of comment".toList
  | alreadyDocumented subject =>
    subject ++ " is already documented; later documentation ignored".toList
  | secondParent group kept rejected =>
    "group ".toList ++ group ++ " already has parent ".toList ++ kept ++
      "; ignoring ".toList ++ rejected
  | unknownGroup group => "@addtogroup refers to unknown group ".toList ++ group
  | unresolved target reason =>
    "unable to resolve reference to ".toList ++ target ++ ": ".toList ++ reason.message
  | repeatedAnchor name => "anchor ".toList ++ name ++ " is defined more than once".toList
  | unmatchedScope marker => "unbalanced group scope marker @".toList ++ [marker]
  | unreadableFile reason => "file skipped: ".toList ++ reason

end Problem

structure Diagnostic where
  problem : Problem
  file : Option Text := none
  line : Option Nat := none
  deriving DecidableEq

namespace Diagnostic

def severity (d : Diagnostic) : Severity := d.problem.severity

/-- A line is shown only after the file that it is in. -/
def message (d : Diagnostic) : Text :=
  match d.file, d.line with
  | some file, some line =>
    file ++ ":".toList ++ Problem.number line ++ ": ".toList ++ d.problem.message
  | some file, none => file ++ ": ".toList ++ d.problem.message
  | none, _ => d.problem.message

/-- Moves the line down, from within a block that starts at `start` to the lines around it. -/
def shift (start : Nat) (d : Diagnostic) : Diagnostic :=
  { d with line := d.line.map (· + start) }

end Diagnostic

end DocComment
