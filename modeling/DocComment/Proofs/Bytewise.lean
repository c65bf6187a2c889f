import DocComment.Proofs.Bytewise.Comment
import DocComment.Proofs.Bytewise.Definition
import DocComment.Proofs.Bytewise.Token

/-!
# Reading by bytes

Positions that are computed in bytes, from lengths of names, places where a search ends and places
that were kept for later, always fall between two characters of the text that is cut there.
-/

set_option autoImplicit false

namespace DocComment.Bytewise

/-- Where a cut anywhere but between two characters of a text gives nothing, every comment is still
stripped, every tokenizer read on, every row cut into cells and every definition list into parts,
as reading character by character does it. -/
theorem every_cut_defined :
    (∀ (tabWidth : Nat) (raw : Text), comment? tabWidth raw = some (.ofRaw tabWidth raw)) ∧
      (∀ s : Tokenizer, next? s = some s.next) ∧
      (∀ line : Text, cells? line = some (TableLine.cells? line)) ∧
      (∀ t : Text, Definition.partsOf? t = some (DocComment.Definition.partsOf t)) :=
  ⟨comment?_eq, next?_eq, cells?_eq, Definition.partsOf?_eq⟩

end DocComment.Bytewise
