import DocComment.Text.Basic

/-!
# Source files

A file is a list of fragments in the order in which they stand in it. A fragment is a
declaration with the comments around it, or a comment that stands alone.
-/

set_option autoImplicit false

namespace DocComment

inductive SymbolKind where
  | function
  | struct
  | union
  | enum
  | enumConstant
  | typedef
  | objectMacro
  | functionMacro
  | var
  | field
  deriving DecidableEq

/-- Whether symbols of this kind can have members. -/
def SymbolKind.isType : SymbolKind → Bool
  | struct | union | enum | typedef => true
  | _ => false

structure Declaration where
  kind : SymbolKind
  name : Text
  signature : Text
  /-- The name of the type that it is a member of. -/
  owner : Option Text
  deriving DecidableEq

/-- What makes two declarations the same symbol. -/
structure SymbolIdentity where
  kind : SymbolKind
  owner : Option Text
  name : Text
  deriving DecidableEq

def Declaration.identity (d : Declaration) : SymbolIdentity := ⟨d.kind, d.owner, d.name⟩

structure SourceFragment where
  declaration : Option Declaration
  /-- The raw comment in front. -/
  before : Option Text
  /-- The raw comment behind. -/
  after : Option Text
  line : Nat
  deriving DecidableEq

structure SourceFile where
  path : Text
  includes : List Text
  fragments : List SourceFragment
  deriving DecidableEq

end DocComment
