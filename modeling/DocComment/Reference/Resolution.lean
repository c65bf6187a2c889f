import DocComment.Reference.Copy

/-!
# Resolving references

What an earlier run has left is cleared, anchors are collected, references are resolved
against one table of names for the whole model, and copies are filled. Nothing here fails: every
reference ends up resolved or broken, and broken ones are reported.
-/

set_option autoImplicit false

namespace DocComment

namespace Model

/-- The file that a report on the documentation of `owner` points at. -/
def fileOf? (m : Model) (owner : Target) : Option Text :=
  let file? :=
    match m.holder owner with
    | .symbol i => m.symbols[i]?.map Symbol.file
    | .group i => m.groups[i]?.bind fun g => g.files.head?
    | .file i => some i
    | .anchor _ => none
  file?.bind fun i => m.files[i]?.map File.path

def unresolvedReport (m : Model) (owner : Target) (target : Text) (reason : RefFailure) :
    Diagnostic :=
  ⟨.unresolved target reason, m.fileOf? owner, none⟩

/-! ## Clearing -/

def clearNode : Node → Id Node
  | .crossRef target shown _ => .crossRef target shown .pending
  | .copyDoc target _ _ => .copyDoc target .pending none
  | node => node

/-- The model before any resolution. -/
def clear (m : Model) : Model :=
  { (traverseDocs (f := Id) (fun _ doc => Doc.edit clearNode doc) m : Model) with
    anchors := [] }

/-! ## Anchors -/

/-- The anchors in all documentation, with their owners. -/
def anchorNodes (m : Model) : List Anchor :=
  m.documented.flatMap fun (owner, doc) =>
    (Doc.nodes doc).filterMap fun
      | .anchor name => some ⟨name, owner⟩
      | _ => none

/-- Splits anchors into the first of each name and the others. -/
def splitAnchors (seen : List Text) : List Anchor → List Anchor × List Anchor
  | [] => ([], [])
  | a :: rest =>
    if seen.contains a.name then
      let later := splitAnchors seen rest
      (later.1, a :: later.2)
    else
      let later := splitAnchors (a.name :: seen) rest
      (a :: later.1, later.2)

def repeatedAnchor (m : Model) (a : Anchor) : Diagnostic :=
  ⟨.repeatedAnchor a.name, m.fileOf? a.owner, none⟩

/-! ## References -/

/-- Resolves one node in the documentation of `owner`. -/
def resolveNode (m : Model) (names : NameTable) (owner : Target) :
    Node → StateM (List Diagnostic) Node
  | .crossRef target shown _ =>
    match names.find? target with
    | some found =>
      return .crossRef target shown
        (.resolved found (shown.getD (names.label found target)))
    | none => do
      modify (· ++ [m.unresolvedReport owner target .notFound])
      return .crossRef target shown (.broken .notFound)
  | node => pure node

def resolveReferences (m : Model) (names : NameTable) : StateM (List Diagnostic) Model :=
  m.traverseDocs fun owner doc => Doc.edit (resolveNode m names owner) doc

/-- The model with every reference resolved or broken, and the reports on what is broken. -/
def resolve (m : Model) : Model × List Diagnostic :=
  let m := m.clear
  let (anchors, duplicates) := splitAnchors [] m.anchorNodes
  let reports := duplicates.map m.repeatedAnchor
  let m := { m with anchors }
  let names := NameTable.ofModel m
  let (m, unresolved) := (m.resolveReferences names).run []
  let (filled, copies) := (Copies.fillModel m names).run .empty
  let uncopied := copies.failed.map fun f => m.unresolvedReport f.owner f.target f.reason
  (filled, reports ++ unresolved ++ uncopied)

end Model

end DocComment
