import DocComment.Corpus.Collection
import DocComment.Reference.Resolution

/-!
# The model of a corpus

Every file is bound by itself, the contributions are collected in file order, and the model is
resolved as a whole. Problems end up in the diagnostics of the model.
-/

set_option autoImplicit false

namespace DocComment

/-- The contributions of some files, numbered from `index` on. -/
def Contribution.ofSources? (options : Options) :
    Nat → List SourceFile → Option (List Contribution)
  | _, [] => some []
  | index, source :: rest => do
    let first ← Contribution.ofSource? options index source
    let others ← ofSources? options (index + 1) rest
    return first :: others

namespace Model

/-- Resolves a model and keeps the reports in it. -/
def resolved (m : Model) : Model :=
  let (resolved, reports) := m.resolve
  { resolved with diagnostics := resolved.diagnostics ++ reports }

/-- The model of some contributions before resolution. -/
def ofContributions (options : Options) (contributions : List Contribution) : Model :=
  (Collection.ofContributions contributions).toModel options

/-- The model of a corpus; none if the blocks of a comment nest too deep. -/
def ofSources? (options : Options) (files : List SourceFile) : Option Model :=
  (Contribution.ofSources? options 0 files).map fun contributions =>
    (ofContributions options contributions).resolved

end Model

end DocComment
