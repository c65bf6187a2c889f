import DocComment.Markup.Preorder

/-!
# Documentation blocks

The sections of a comment in their fixed order. Appending adds one block to another: the
first brief description wins, and a second one opens the detail that is appended.
-/

set_option autoImplicit false

namespace DocComment

/-- The direction written in brackets after a parameter command. -/
def ParamDirection.ofSpec (spec : Text) : ParamDirection :=
  let word := Text.lower (spec.filter fun c => !Text.isSpace c)
  if word = "in".toList then .input
  else if word = "out".toList then .output
  else if word = "in,out".toList ∨ word = "out,in".toList ∨ word = "inout".toList then .inputOutput
  else .unspecified

namespace Sections

variable {α : Type}

def isEmpty (doc : Sections α) : Bool :=
  doc.brief.isNone && doc.detail.isEmpty && doc.params.isEmpty && doc.returns.isNone &&
    doc.retvals.isEmpty && doc.seeAlso.isEmpty && doc.admonitions.isEmpty

/-- The return section with more content; it comes into being if need be. -/
def addReturns (doc : Sections α) (body : List α) : Sections α :=
  { doc with returns := some (doc.returns.getD [] ++ body) }

def append (doc other : Sections α) : Sections α where
  brief := doc.brief.or other.brief
  detail := doc.detail ++ (if doc.brief.isSome then other.brief.toList else []) ++ other.detail
  params := doc.params ++ other.params
  returns :=
    match other.returns with
    | some body => some (doc.returns.getD [] ++ body)
    | none => doc.returns
  retvals := doc.retvals ++ other.retvals
  seeAlso := doc.seeAlso ++ other.seeAlso
  admonitions := doc.admonitions ++ other.admonitions

/-- The contents of every section, in order. -/
def contents (doc : Sections α) : List α :=
  doc.brief.toList ++ doc.detail ++ doc.params.flatMap ParamEntry.body ++
    doc.returns.getD [] ++ doc.retvals.flatMap RetvalEntry.body ++ doc.seeAlso ++
    doc.admonitions.flatMap Admonition.body

/-- Replaces the contents of every section, in order. -/
def traverse {β : Type} {m : Type → Type} [Monad m] (f : α → m β) (doc : Sections α) :
    m (Sections β) := do
  return {
    brief := ← doc.brief.mapM f
    detail := ← doc.detail.mapM f
    params := ← doc.params.mapM fun p => return ⟨p.name, p.direction, ← p.body.mapM f⟩
    returns := ← doc.returns.mapM fun body => body.mapM f
    retvals := ← doc.retvals.mapM fun r => return ⟨r.value, ← r.body.mapM f⟩
    seeAlso := ← doc.seeAlso.mapM f
    admonitions := ← doc.admonitions.mapM fun a => return ⟨a.kind, a.title, ← a.body.mapM f⟩ }

end Sections

namespace Doc

/-- Every node of every section. -/
def nodes (doc : Doc) : List Node := doc.contents.flatMap Node.preorder

def edit {m : Type → Type} [Monad m] (f : Node → m Node) (doc : Doc) : m Doc :=
  doc.traverse (Node.edit f)

def summary (doc : Doc) : Text := (doc.brief.map Node.plainText).getD []

end Doc

end DocComment
