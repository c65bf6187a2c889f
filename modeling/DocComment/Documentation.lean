import DocComment.Comment
import DocComment.Section.Reader

/-!
# Documentation of one comment

The lines of a comment become its sections, its directives and what is wrong with it. There
is no documentation if a line holds a control character or the blocks nest too deep.
-/

set_option autoImplicit false

namespace DocComment

inductive CommentError where
  | controlCharacter (error : ControlCharacter)
  | nesting
  deriving DecidableEq

structure Documentation where
  doc : Doc
  directives : List Directive
  /-- The lines of these count from the start of the comment. -/
  diagnostics : List Diagnostic

namespace Documentation

def ofLines (options : Options) (lines : List Text) : Except CommentError Documentation :=
  match tokenize lines with
  | .error e => .error (.controlCharacter e)
  | .ok tokens =>
    match SectionReader.read options (Blocks.parse options) tokens with
    | some s => .ok ⟨s.doc, s.directives, s.diagnostics⟩
    | none => .error .nesting

def ofComment (options : Options) (comment : Comment) : Except CommentError Documentation :=
  ofLines options comment.lines

def namesGroup (d : Documentation) : Bool :=
  d.directives.any fun
    | .defineGroup _ _ | .extendGroup _ _ => true
    | _ => false

def namesFile (d : Documentation) : Bool := d.directives.contains .file

/-- The groups that the comment asks to be put in. -/
def wantedGroups (d : Documentation) : List Text :=
  d.directives.flatMap fun
    | .joinGroups names => names
    | _ => []

end Documentation

end DocComment
