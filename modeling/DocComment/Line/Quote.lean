import DocComment.Text.Basic

/-!
# Quoted lines

A quoted line is indented by spaces only and starts with `>`. One space after the mark
belongs to it; further marks stay in the text.
-/

set_option autoImplicit false

namespace DocComment

structure QuoteLine where
  indent : Nat
  text : Text
  deriving DecidableEq

namespace QuoteLine

def read? (line : Text) : Option QuoteLine :=
  match line.dropWhile (· == ' ') with
  | '>' :: ' ' :: text => some ⟨Text.indent line, text⟩
  | '>' :: text => some ⟨Text.indent line, text⟩
  | _ => none

end QuoteLine

end DocComment
