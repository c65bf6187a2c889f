import DocComment.Proofs.Reference.Resolved

/-!
# Resolving again

Clearing makes the same of all models that differ in anchors, states and copied documentation only,
and everything after it starts from the cleared model. A resolved model differs from what it was
made of in no more than that.
-/

set_option autoImplicit false

namespace DocComment

namespace Model

/-- Models that differ in anchors, in the states of references and in copied documentation only. -/
structure Alike (m m' : Model) : Prop where
  files : List.Forall₂
    (fun f f' => f' = { f with doc := f'.doc } ∧ Option.Rel Doc.Alike f.doc f'.doc)
    m.files m'.files
  groups : List.Forall₂
    (fun g g' => g' = { g with doc := g'.doc } ∧ Option.Rel Doc.Alike g.doc g'.doc)
    m.groups m'.groups
  roots : m'.roots = m.roots
  symbols : List.Forall₂
    (fun s s' => s' = { s with doc := s'.doc } ∧ Option.Rel Doc.Alike s.doc s'.doc)
    m.symbols m'.symbols
  diagnostics : m'.diagnostics = m.diagnostics

theorem clearNode_blind {n n' : Node} (h : Node.Restated n n') : clearNode n = clearNode n' := by
  cases h <;> rfl

theorem clear_eq_of_alike {m m' : Model} (h : m.Alike m') : m'.clear = m.clear := by
  have docs {d d' : Option Doc} (h : Option.Rel Doc.Alike d d') :
      d.map (Doc.rewrite clearNode) = d'.map (Doc.rewrite clearNode) :=
    map_eq_of_rel h fun _ _ _ => Doc.rewrite_eq_of_alike fun _ _ => clearNode_blind
  have files := map_eq_of_forall₂
    (f := fun f => ({ f with doc := f.doc.map (Doc.rewrite clearNode) } : File)) h.files
    fun f _ f' alike => by rw [alike.1, docs alike.2]
  have groups := map_eq_of_forall₂
    (f := fun g => ({ g with doc := g.doc.map (Doc.rewrite clearNode) } : Group)) h.groups
    fun g _ g' alike => by rw [alike.1, docs alike.2]
  have symbols := map_eq_of_forall₂
    (f := fun s => ({ s with doc := s.doc.map (Doc.rewrite clearNode) } : Symbol)) h.symbols
    fun s _ s' alike => by rw [alike.1, docs alike.2]
  simp only [clear_eq, mapDocs, files, groups, symbols, h.roots, h.diagnostics]

theorem resolve_eq_of_alike {m m' : Model} (h : m.Alike m') : m'.resolve = m.resolve := by
  unfold resolve
  rw [clear_eq_of_alike h]

theorem alike_mapDocs {m : Model} {g : Node → Node} (hg : Node.Restates g) (anchors : List Anchor) :
    m.Alike { m.mapDocs fun _ => Doc.rewrite g with anchors := anchors } := by
  have docs (d : Option Doc) : Option.Rel Doc.Alike d (d.map (Doc.rewrite g)) :=
    rel_map fun doc _ => Doc.alike_rewrite hg doc
  exact {
    files := forall₂_map fun f _ => ⟨rfl, docs f.doc⟩
    groups := forall₂_map fun g _ => ⟨rfl, docs g.doc⟩
    roots := rfl
    symbols := forall₂_map fun s _ => ⟨rfl, docs s.doc⟩
    diagnostics := rfl }

theorem alike_resolve {m : Model} (numbered : m.Numbered) : m.Alike m.resolve.1 := by
  rw [resolve_eq numbered]
  exact alike_mapDocs (m.indexed.settleNode_restates _) m.indexed.anchors

end Model

/-- Resolution starts afresh on every model that differs from `m` in its results only, its own
result included. -/
theorem resolve_stable (options : Options) (contributions : List Contribution) :
    let m := Model.ofContributions options contributions
    (∀ m', m.Alike m' → m'.resolve = m.resolve) ∧
      m.resolve.1.resolve = m.resolve ∧ m.Alike m.resolve.1 := by
  intro m
  have alike : m.Alike m.resolve.1 :=
    Model.alike_resolve (Model.ofContributions_numbered options contributions)
  exact ⟨fun _ => Model.resolve_eq_of_alike, Model.resolve_eq_of_alike alike, alike⟩

/-- Two functions that copy each other, and a third one that copies one of them. -/
def mutualCopies : List Contribution :=
  let copying (name target : String) : Event :=
    .declare ⟨.function, name.toList, name.toList, none⟩
      (some { detail := [.copyDoc target.toList .pending none] }) [] 1
  [⟨0, "io.h".toList, [], none,
    [copying "open" "close", copying "close" "open", copying "flush" "close"], []⟩]

/-- Broken copies and an anchor that is nowhere do not matter to the next resolution. -/
theorem mutualCopies_resolve_again :
    let m := Model.ofContributions {} mutualCopies
    let m' := { m.resolve.1 with anchors := [⟨"lost".toList, .symbol 0⟩] }
    m.Alike m' ∧ m'.resolve = m.resolve := by
  intro m m'
  obtain ⟨again, -, alike⟩ := resolve_stable {} mutualCopies
  have alike' : m.Alike m' :=
    ⟨alike.files, alike.groups, alike.roots, alike.symbols, alike.diagnostics⟩
  exact ⟨alike', again m' alike'⟩

end DocComment
