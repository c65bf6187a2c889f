import DocComment.Reference.NameTable

/-!
# Copied documentation

A copy node is filled with the documentation of its target, in which all copies are filled
first. A copy that leads back to documentation which is still being filled is a cycle, and so
is a copy of documentation that holds one. The documentation of each owner is filled once.
-/

set_option autoImplicit false

namespace DocComment

/-- A copy that could not be filled, in the documentation of `owner`. -/
structure UnfilledCopy where
  owner : Target
  target : Text
  reason : RefFailure
  deriving DecidableEq

structure Copies where
  /-- The documentation that is filled already. -/
  filled : List (Target × Doc)
  failed : List UnfilledCopy

namespace Copies

def empty : Copies := ⟨[], []⟩

/-- Whether a node is a copy that runs into a cycle. -/
def isCyclic : Node → Bool
  | .copyDoc _ (.broken .cycle) _ => true
  | _ => false

/-- What a copy gets of documentation that is filled. -/
def copy (doc : Doc) : Except RefFailure Doc :=
  if (Doc.nodes doc).any isCyclic then .error .cycle else .ok doc

section

variable (m : Model) (names : NameTable)

/-- Fills one node in the documentation of `owner`; `source` gives what a copy gets of the
documentation of another owner. -/
def fillNode (source : Target → StateM Copies (Except RefFailure Doc)) (owner : Target) :
    Node → StateM Copies Node
  | .copyDoc written _ _ => do
    let copied : Except RefFailure (Target × Doc) ←
      match names.find? written with
      | none => pure (.error .notFound)
      | some target => (fun read => read.map (target, ·)) <$> source (m.holder target)
    match copied with
    | .ok (target, doc) => return .copyDoc written (.resolved target written) (some doc)
    | .error reason =>
      modify fun s => { s with failed := s.failed ++ [⟨owner, written, reason⟩] }
      return .copyDoc written (.broken reason) none
  | node => pure node

/-- What a copy gets of the documentation of `owner`, which is filled if need be. The
documented owners that are not being filled at this time are `waiting`. -/
def fill (waiting : List Target) (owner : Target) :
    StateM Copies (Except RefFailure Doc) := do
  match (← get).filled.lookup owner with
  | some doc => return copy doc
  | none =>
    match m.ownDoc? owner with
    | none => return .error .undocumented
    | some doc =>
      if _ : owner ∈ waiting then
        let doc ← Doc.edit (fillNode m names (fill (waiting.erase owner)) owner) doc
        modify fun s => { s with filled := (owner, doc) :: s.filled }
        return copy doc
      else return .error .cycle
termination_by waiting.length
decreasing_by
  rw [List.length_erase_of_mem ‹_ ∈ waiting›]
  have := List.length_pos_of_mem ‹_ ∈ waiting›
  omega

/-- Fills the documentation of every owner. -/
def fillModel : StateM Copies Model :=
  m.traverseDocs fun owner doc => do
    let _ ← fill m names (m.documented.map Prod.fst) owner
    return ((← get).filled.lookup owner).getD doc

end

end Copies

end DocComment
