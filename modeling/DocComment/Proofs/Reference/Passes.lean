import DocComment.Proofs.Corpus.Documented
import DocComment.Proofs.Markup.Restated
import DocComment.Reference.Resolution

/-!
# The passes before the copies

Clearing and the resolution of references go through all documentation and change the state of
single nodes. What a node says, and so every name in the model, is the same after each pass.
-/

set_option autoImplicit false

namespace DocComment

namespace Model

theorem clearNode_restates : Node.Restates clearNode := by
  intro n
  cases n <;> constructor

theorem clear_eq (m : Model) :
    m.clear = { m.mapDocs fun _ => Doc.rewrite clearNode with anchors := [] } := by
  have changed : traverseDocs (f := Id) (fun _ doc => Doc.edit clearNode doc) m =
      m.mapDocs fun _ => Doc.rewrite clearNode := by
    rw [traverseDocs_id]
    congr 1
    funext _ doc
    exact Doc.edit_id clearNode doc
  unfold clear
  rw [changed]

/-- What a reference becomes; `resolveNode` reports it as well if it is broken. -/
def linkNode (names : NameTable) : Node → Node
  | .crossRef target shown _ =>
    match names.find? target with
    | some found =>
      .crossRef target shown (.resolved found (shown.getD (names.label found target)))
    | none => .crossRef target shown (.broken .notFound)
  | n => n

theorem linkNode_restates (names : NameTable) : Node.Restates (linkNode names) := by
  intro n
  cases n with
  | crossRef target shown status =>
    simp only [linkNode]
    split <;> constructor
  | _ => constructor

theorem resolveNode_yields (m : Model) (names : NameTable) (owner : Target) (n : Node) :
    Yields (fun _ => True) (m.resolveNode names owner n) (linkNode names n) := by
  intro reports _
  cases n with
  | crossRef target shown status =>
    simp only [resolveNode, linkNode]
    cases names.find? target <;> exact ⟨rfl, trivial⟩
  | _ => exact ⟨rfl, trivial⟩

theorem resolveReferences_fst (m : Model) (names : NameTable) (reports : List Diagnostic) :
    ((m.resolveReferences names).run reports).1 =
      m.mapDocs fun _ => Doc.rewrite (linkNode names) := by
  have all : Yields (fun _ => True) (m.resolveReferences names)
      (m.mapDocs fun _ => Doc.rewrite (linkNode names)) :=
    traverseDocs_yields fun p _ =>
      Doc.edit_yields fun n _ => resolveNode_yields m names p.1 n
  exact (all reports trivial).1

/-- The model with its anchors, and nothing else resolved. -/
def anchored (m : Model) : Model :=
  { m.clear with anchors := (splitAnchors [] m.clear.anchorNodes).1 }

/-- The model with everything but the copies. -/
def linked (m : Model) : Model :=
  m.anchored.mapDocs fun _ => Doc.rewrite (linkNode (NameTable.ofModel m.anchored))

theorem resolve_fst (m : Model) :
    m.resolve.1 = ((Copies.fillModel m.linked (NameTable.ofModel m.linked)).run .empty).1 := by
  have names : NameTable.ofModel m.linked = NameTable.ofModel m.anchored :=
    NameTable.ofModel_mapDocs _ _
  rw [names, linked, ← resolveReferences_fst _ _ []]
  rfl

end Model

end DocComment
