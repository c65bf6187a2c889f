import DocComment.Text.Basic

/-!
# Paths

A path is compared by its components, the parts between slashes that are not empty. It is
shown as it was given.
-/

set_option autoImplicit false

namespace DocComment.Path

def components (path : Text) : List Text := (path.splitOn '/').filter fun part => !part.isEmpty

def same (a b : Text) : Bool := components a == components b

/-- The last component that is not `.`; a path that ends in `..` has none. -/
def fileName? (path : Text) : Option Text :=
  ((components path).filter fun part => part != ['.']).getLast?.filter fun part =>
    part != ['.', '.']

end DocComment.Path
