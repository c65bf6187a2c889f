import DocComment.Proofs.Corpus.Numbering
import DocComment.Proofs.Markup.Edit
import DocComment.Reference.NameTable

/-!
# Documentation and its owners

In a model whose numbers are positions an owner has at most one documentation, and to change all
documentation is to change that of each owner. Names, anchors and everything else stay.
-/

set_option autoImplicit false

namespace DocComment

namespace Model

/-- Changes all documentation at once. -/
def mapDocs (g : Target → Doc → Doc) (m : Model) : Model :=
  { m with
    symbols := m.symbols.map fun s => { s with doc := s.doc.map (g (.symbol s.id)) }
    groups := m.groups.map fun s => { s with doc := s.doc.map (g (.group s.id)) }
    files := m.files.map fun s => { s with doc := s.doc.map (g (.file s.id)) } }

theorem traverseDocs_id (g : Target → Doc → Doc) (m : Model) :
    traverseDocs (f := Id) g m = m.mapDocs g := by
  change Model.mk
    (m.files.mapM (m := Id) fun s => { s with doc := s.doc.mapM (m := Id) (g (.file s.id)) })
    (m.groups.mapM (m := Id) fun s => { s with doc := s.doc.mapM (m := Id) (g (.group s.id)) })
    m.roots
    (m.symbols.mapM (m := Id) fun s => { s with doc := s.doc.mapM (m := Id) (g (.symbol s.id)) })
    m.anchors m.diagnostics = m.mapDocs g
  simp only [mapM_id, optionMapM_id]
  rfl

theorem traverseDocs_agree {n n' : Type → Type} [Monad n] [Monad n'] [LawfulMonad n]
    [LawfulMonad n'] (R : Agreement n n') {change : Target → Doc → n Doc}
    {change' : Target → Doc → n' Doc} {m : Model}
    (h : ∀ p ∈ m.documented, R.rel (change p.1 p.2) (change' p.1 p.2)) :
    R.rel (m.traverseDocs change) (m.traverseDocs change') := by
  simp only [documented, List.mem_append, List.mem_filterMap, Option.map_eq_some_iff] at h
  have symbols := R.mapM (l := m.symbols) fun s hs => R.andPure (R.optionMapM fun doc hd =>
    h (.symbol s.id, doc) (.inl (.inl ⟨s, hs, doc, hd, rfl⟩))) fun doc => { s with doc := doc }
  have groups := R.mapM (l := m.groups) fun s hs => R.andPure (R.optionMapM fun doc hd =>
    h (.group s.id, doc) (.inl (.inr ⟨s, hs, doc, hd, rfl⟩))) fun doc => { s with doc := doc }
  have files := R.mapM (l := m.files) fun s hs => R.andPure (R.optionMapM fun doc hd =>
    h (.file s.id, doc) (.inr ⟨s, hs, doc, hd, rfl⟩)) fun doc => { s with doc := doc }
  exact R.bind symbols fun _ => R.bind groups fun _ => R.andPure files _

theorem traverseDocs_yields {σ : Type} {I : σ → Prop} {change : Target → Doc → StateM σ Doc}
    {g : Target → Doc → Doc} {m : Model}
    (h : ∀ p ∈ m.documented, Yields I (change p.1 p.2) (g p.1 p.2)) :
    Yields I (m.traverseDocs change) (m.mapDocs g) := by
  rw [← traverseDocs_id]
  exact traverseDocs_agree (Yields.agreement I) h

/-! ## Owners -/

theorem mem_documented_of_counted {α : Type} {number : α → Nat} {l : List α}
    (counted : CountedBy number l) (kind : Nat → Target) (docOf : α → Option Doc)
    {owner : Target} {doc : Doc} :
    (owner, doc) ∈ l.filterMap (fun a => (docOf a).map (kind (number a), ·)) ↔
      ∃ i, kind i = owner ∧ l[i]?.bind docOf = some doc := by
  simp only [List.mem_filterMap, Option.map_eq_some_iff, Prod.mk.injEq]
  constructor
  · rintro ⟨a, ha, d, hd, rfl, rfl⟩
    exact ⟨number a, rfl, by rw [counted.getElem?_of_mem ha, Option.bind_some, hd]⟩
  · rintro ⟨i, rfl, h⟩
    obtain ⟨a, ha, hd⟩ := Option.bind_eq_some_iff.mp h
    exact ⟨a, List.mem_of_getElem? ha, doc, hd, by rw [counted.getElem?_eq ha], rfl⟩

theorem mem_documented {m : Model} (numbered : m.Numbered) {owner : Target} {doc : Doc} :
    (owner, doc) ∈ m.documented ↔ m.ownDoc? owner = some doc := by
  rw [documented, List.mem_append, List.mem_append,
    mem_documented_of_counted numbered.symbols Target.symbol,
    mem_documented_of_counted numbered.groups Target.group,
    mem_documented_of_counted numbered.files Target.file]
  cases owner <;> simp [ownDoc?]

theorem bind_doc_map {α : Type} {number : α → Nat} {l : List α} (counted : CountedBy number l)
    {docOf : α → Option Doc} {change : α → α} {g : Nat → Doc → Doc}
    (h : ∀ a, docOf (change a) = (docOf a).map (g (number a))) (i : Nat) :
    (l.map change)[i]?.bind docOf = (l[i]?.bind docOf).map (g i) := by
  rw [List.getElem?_map]
  cases ha : l[i]? with
  | none => rfl
  | some a => rw [Option.map_some, Option.bind_some, h, counted.getElem?_eq ha, Option.bind_some]

theorem ownDoc?_mapDocs {m : Model} (numbered : m.Numbered) (g : Target → Doc → Doc)
    (owner : Target) : (m.mapDocs g).ownDoc? owner = (m.ownDoc? owner).map (g owner) := by
  cases owner with
  | symbol i => exact bind_doc_map (g := fun i => g (.symbol i)) numbered.symbols (fun _ => rfl) i
  | group i => exact bind_doc_map (g := fun i => g (.group i)) numbered.groups (fun _ => rfl) i
  | file i => exact bind_doc_map (g := fun i => g (.file i)) numbered.files (fun _ => rfl) i
  | anchor i => rfl

theorem mapDocs_numbered {m : Model} (numbered : m.Numbered) (g : Target → Doc → Doc) :
    (m.mapDocs g).Numbered :=
  ⟨numbered.files.map fun _ => rfl, numbered.groups.map fun _ => rfl,
    numbered.symbols.map fun _ => rfl⟩

@[simp] theorem holder_mapDocs (m : Model) (g : Target → Doc → Doc) (t : Target) :
    (m.mapDocs g).holder t = m.holder t := rfl

theorem mapDocs_mapDocs (m : Model) (g g' : Target → Doc → Doc) :
    (m.mapDocs g).mapDocs g' = m.mapDocs fun owner doc => g' owner (g owner doc) := by
  simp [mapDocs, Function.comp_def]

end Model

namespace NameTable

/-- Documentation has no names of its own; anchors are listed apart. -/
theorem ofModel_mapDocs (m : Model) (g : Target → Doc → Doc) :
    ofModel (m.mapDocs g) = ofModel m := by
  have members (s : Symbol) (doc : Option Doc) :
      memberNames (m.mapDocs g) { s with doc := doc } = memberNames m s := by
    unfold memberNames
    cases s.owner with
    | none => rfl
    | some i =>
      simp only [Model.mapDocs, Option.bind_some, List.getElem?_map]
      cases m.symbols[i]? <;> rfl
  have ownMembers : (m.mapDocs g).symbols.flatMap (memberNames (m.mapDocs g)) =
      m.symbols.flatMap (memberNames m) := by
    change List.flatMap _ (m.symbols.map _) = _
    rw [List.flatMap_map]
    exact List.flatMap_congr fun s _ => members s _
  unfold ofModel namesOf
  rw [ownMembers]
  simp [Model.mapDocs, List.filter_map, Function.comp_def, Group.shownTitle]

end NameTable

end DocComment
