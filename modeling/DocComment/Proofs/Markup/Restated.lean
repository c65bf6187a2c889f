import DocComment.Proofs.Markup.Edit

/-!
# States of resolution

Resolution changes the states of references and copies and nothing else. Two nodes are alike if
they differ in no more than that, at any depth; a change of states leaves a node alike, and a change
that does not look at states takes alike nodes to the same one.
-/

set_option autoImplicit false

namespace DocComment

namespace Node

/-- The second node is the first one in another state of resolution. -/
inductive Restated : Node → Node → Prop
  | refl (n : Node) : Restated n n
  | crossRef (target : Text) (shown : Option Text) (status status' : RefStatus) :
    Restated (.crossRef target shown status) (.crossRef target shown status')
  | copyDoc (target : Text) (status status' : RefStatus) (content content' : Option Doc) :
    Restated (.copyDoc target status content) (.copyDoc target status' content')

theorem Restated.trans {a b c : Node} (h : Restated a b) (h' : Restated b c) : Restated a c := by
  cases h with
  | refl => exact h'
  | crossRef => cases h' <;> constructor
  | copyDoc => cases h' <;> constructor

theorem Restated.isContainer_eq {n n' : Node} (h : Restated n n') :
    n'.isContainer = n.isContainer := by
  cases h <;> rfl

/-- What a copy asks for. -/
def copyTarget? : Node → Option Text
  | .copyDoc target _ _ => some target
  | _ => none

theorem Restated.copyTarget?_eq {n n' : Node} (h : Restated n n') :
    n'.copyTarget? = n.copyTarget? := by
  cases h <;> rfl

theorem copyTarget?_of_container {n : Node} (h : n.isContainer = true) : n.copyTarget? = none := by
  cases n <;> simp_all [isContainer, copyTarget?]

/-- A change of states only. -/
def Restates (g : Node → Node) : Prop := ∀ n, Restated n (g n)

theorem Restates.comp {g g' : Node → Node} (h' : Restates g') (h : Restates g) :
    Restates (g' ∘ g) := fun n => (h n).trans (h' (g n))

theorem Restates.keepsLeaves {g : Node → Node} (h : Restates g) : KeepsLeaves g :=
  fun n leaf => (h n).isContainer_eq.trans leaf

theorem Restates.copyTarget?_rewrite {g : Node → Node} (h : Restates g) (n : Node) :
    (n.rewrite g).copyTarget? = n.copyTarget? := by
  cases container : n.isContainer with
  | true =>
    rw [rewrite_of_container g container, copyTarget?_of_container container,
      copyTarget?_of_container (by simpa using container)]
  | false =>
    rw [rewrite_of_leaf g container]
    exact (h n).copyTarget?_eq

end Node

namespace Doc

/-- What the copies in some documentation ask for, in order. -/
def copyTargets (doc : Doc) : List Text := doc.nodes.filterMap Node.copyTarget?

theorem copyTargets_rewrite {g : Node → Node} (h : Node.Restates g) (doc : Doc) :
    (doc.rewrite g).copyTargets = doc.copyTargets := by
  unfold copyTargets
  rw [nodes_rewrite h.keepsLeaves, List.filterMap_map]
  exact List.filterMap_congr fun n _ => h.copyTarget?_rewrite n

end Doc

/-! ## Alike documentation -/

section

variable {α : Type}

inductive ListItem.Alike (R : α → α → Prop) : ListItem α → ListItem α → Prop
  | mk (depth : Nat) (ordered : Bool) {body body' : List α} :
    List.Forall₂ R body body' → Alike R ⟨depth, ordered, body⟩ ⟨depth, ordered, body'⟩

inductive TableCell.Alike (R : α → α → Prop) : TableCell α → TableCell α → Prop
  | mk (span rowSpan : Nat) (mergedUp : Bool) {body body' : List α} :
    List.Forall₂ R body body' →
      Alike R ⟨span, rowSpan, mergedUp, body⟩ ⟨span, rowSpan, mergedUp, body'⟩

inductive TableRow.Alike (R : α → α → Prop) : TableRow α → TableRow α → Prop
  | mk (header : Bool) {cells cells' : List (TableCell α)} :
    List.Forall₂ (TableCell.Alike R) cells cells' → Alike R ⟨header, cells⟩ ⟨header, cells'⟩

inductive TermEntry.Alike (R : α → α → Prop) : TermEntry α → TermEntry α → Prop
  | mk {term term' : List α} {definitions definitions' : List (List α)} :
    List.Forall₂ R term term' → List.Forall₂ (List.Forall₂ R) definitions definitions' →
      Alike R ⟨term, definitions⟩ ⟨term', definitions'⟩

/-- Sections with the same titles and names around contents that are related one by one. -/
structure Sections.Alike (R : α → α → Prop) (doc doc' : Sections α) : Prop where
  brief : Option.Rel R doc.brief doc'.brief
  detail : List.Forall₂ R doc.detail doc'.detail
  params : List.Forall₂ (fun p p' => p.name = p'.name ∧ p.direction = p'.direction ∧
    List.Forall₂ R p.body p'.body) doc.params doc'.params
  returns : Option.Rel (List.Forall₂ R) doc.returns doc'.returns
  retvals : List.Forall₂ (fun r r' => r.value = r'.value ∧ List.Forall₂ R r.body r'.body)
    doc.retvals doc'.retvals
  seeAlso : List.Forall₂ R doc.seeAlso doc'.seeAlso
  admonitions : List.Forall₂ (fun a a' => a.kind = a'.kind ∧ a.title = a'.title ∧
    List.Forall₂ R a.body a'.body) doc.admonitions doc'.admonitions

end

/-- Nodes that differ in states and in copied documentation only. -/
inductive Node.Alike : Node → Node → Prop
  | restated {n n' : Node} : Node.Restated n n' → Alike n n'
  | paragraph {body body' : List Node} :
    List.Forall₂ Alike body body' → Alike (.paragraph body) (.paragraph body')
  | styled (style : Style) {body body' : List Node} :
    List.Forall₂ Alike body body' → Alike (.styled style body) (.styled style body')
  | link (url : Text) {body body' : List Node} :
    List.Forall₂ Alike body body' → Alike (.link url body) (.link url body')
  | blockQuote {body body' : List Node} :
    List.Forall₂ Alike body body' → Alike (.blockQuote body) (.blockQuote body')
  | list (ordered : Bool) {items items' : List (ListItem Node)} :
    List.Forall₂ (ListItem.Alike Alike) items items' →
      Alike (.list ordered items) (.list ordered items')
  | table (alignment : List Alignment) {rows rows' : List (TableRow Node)} :
    List.Forall₂ (TableRow.Alike Alike) rows rows' →
      Alike (.table ⟨alignment, rows⟩) (.table ⟨alignment, rows'⟩)
  | definitionList {entries entries' : List (TermEntry Node)} :
    List.Forall₂ (TermEntry.Alike Alike) entries entries' →
      Alike (.definitionList entries) (.definitionList entries')

def Doc.Alike : Doc → Doc → Prop := Sections.Alike Node.Alike

theorem map_eq_of_forall₂ {α β : Type} {R : α → α → Prop} {f : α → β} {l l' : List α}
    (h : List.Forall₂ R l l') (same : ∀ a ∈ l, ∀ b, R a b → f a = f b) : l.map f = l'.map f := by
  induction h with
  | nil => rfl
  | cons head _ ih =>
    rw [List.map_cons, List.map_cons, same _ List.mem_cons_self _ head,
      ih fun a ha => same a (List.mem_cons_of_mem _ ha)]

theorem map_eq_of_rel {α β : Type} {R : α → α → Prop} {f : α → β} {o o' : Option α}
    (h : Option.Rel R o o') (same : ∀ a ∈ o, ∀ b, R a b → f a = f b) : o.map f = o'.map f := by
  cases h with
  | none => rfl
  | some related => exact congrArg some (same _ rfl _ related)

theorem forall₂_map {α : Type} {R : α → α → Prop} {f : α → α} {l : List α}
    (h : ∀ a ∈ l, R a (f a)) : List.Forall₂ R l (l.map f) :=
  List.forall₂_map_right_iff.mpr (List.forall₂_same.mpr h)

theorem rel_map {α : Type} {R : α → α → Prop} {f : α → α} {o : Option α}
    (h : ∀ a ∈ o, R a (f a)) : Option.Rel R o (o.map f) := by
  cases o with
  | none => exact .none
  | some a => exact .some (h a rfl)

namespace Node

/-- A change that does not look at states makes the same of alike nodes. -/
theorem rewrite_eq_of_alike {g : Node → Node} (blind : ∀ n n', Restated n n' → g n = g n')
    {n n' : Node} (h : Alike n n') : n.rewrite g = n'.rewrite g := by
  induction n using parts_induction generalizing n' with
  | step n ih =>
    cases h with
    | restated h =>
      cases container : n.isContainer with
      | true =>
        cases h with
        | refl => rfl
        | crossRef => simp [isContainer] at container
        | copyDoc => simp [isContainer] at container
      | false =>
        rw [rewrite_of_leaf g container, rewrite_of_leaf g (h.isContainer_eq.trans container)]
        exact blind _ _ h
    | paragraph body =>
      rw [rewrite_of_container g rfl, rewrite_of_container g rfl]
      exact congrArg paragraph (map_eq_of_forall₂ body fun c hc _ alike => ih c hc alike)
    | styled style body =>
      rw [rewrite_of_container g rfl, rewrite_of_container g rfl]
      exact congrArg (styled style) (map_eq_of_forall₂ body fun c hc _ alike => ih c hc alike)
    | link url body =>
      rw [rewrite_of_container g rfl, rewrite_of_container g rfl]
      exact congrArg (link url) (map_eq_of_forall₂ body fun c hc _ alike => ih c hc alike)
    | blockQuote body =>
      rw [rewrite_of_container g rfl, rewrite_of_container g rfl]
      exact congrArg blockQuote (map_eq_of_forall₂ body fun c hc _ alike => ih c hc alike)
    | list ordered items =>
      rw [rewrite_of_container g rfl, rewrite_of_container g rfl]
      refine congrArg (list ordered) (map_eq_of_forall₂ items fun item hi _ alike => ?_)
      obtain ⟨depth, o, body⟩ := alike
      exact congrArg (ListItem.mk depth o) (map_eq_of_forall₂ body fun c hc _ alike =>
        ih c (List.mem_flatMap.mpr ⟨_, hi, hc⟩) alike)
    | table alignment rows =>
      rw [rewrite_of_container g rfl, rewrite_of_container g rfl]
      refine congrArg (fun rows => table ⟨alignment, rows⟩)
        (map_eq_of_forall₂ rows fun row hr _ alike => ?_)
      obtain ⟨header, cells⟩ := alike
      refine congrArg (TableRow.mk header) (map_eq_of_forall₂ cells fun cell hcell _ alike => ?_)
      obtain ⟨span, rowSpan, mergedUp, body⟩ := alike
      exact congrArg (TableCell.mk span rowSpan mergedUp)
        (map_eq_of_forall₂ body fun c hc _ alike =>
          ih c (List.mem_flatMap.mpr ⟨_, hr, List.mem_flatMap.mpr ⟨_, hcell, hc⟩⟩) alike)
    | definitionList entries =>
      rw [rewrite_of_container g rfl, rewrite_of_container g rfl]
      refine congrArg definitionList (map_eq_of_forall₂ entries fun entry he _ alike => ?_)
      obtain ⟨term, definitions⟩ := alike
      refine congrArg₂ TermEntry.mk ?_ ?_
      · exact map_eq_of_forall₂ term fun c hc _ alike =>
          ih c (List.mem_flatMap.mpr ⟨_, he, List.mem_append_left _ hc⟩) alike
      · exact map_eq_of_forall₂ definitions fun body hb _ alike =>
          map_eq_of_forall₂ alike fun c hc _ alike =>
            ih c (List.mem_flatMap.mpr ⟨_, he,
              List.mem_append_right _ (List.mem_flatten.mpr ⟨body, hb, hc⟩)⟩) alike

/-- A change of states leaves a node alike. -/
theorem alike_rewrite {g : Node → Node} (h : Restates g) (n : Node) : Alike n (n.rewrite g) := by
  induction n using parts_induction with
  | step n ih =>
    cases n with
    | paragraph body =>
      rw [rewrite_of_container g rfl]
      exact .paragraph (forall₂_map ih)
    | styled style body =>
      rw [rewrite_of_container g rfl]
      exact .styled style (forall₂_map ih)
    | link url body =>
      rw [rewrite_of_container g rfl]
      exact .link url (forall₂_map ih)
    | blockQuote body =>
      rw [rewrite_of_container g rfl]
      exact .blockQuote (forall₂_map ih)
    | list ordered items =>
      rw [rewrite_of_container g rfl]
      refine .list ordered (forall₂_map fun item hi => .mk _ _ (forall₂_map fun c hc => ?_))
      exact ih c (List.mem_flatMap.mpr ⟨item, hi, hc⟩)
    | table t =>
      rw [rewrite_of_container g rfl]
      refine .table _ (forall₂_map fun row hr => .mk _ (forall₂_map fun cell hcell =>
        .mk _ _ _ (forall₂_map fun c hc => ?_)))
      exact ih c (List.mem_flatMap.mpr ⟨row, hr, List.mem_flatMap.mpr ⟨cell, hcell, hc⟩⟩)
    | definitionList entries =>
      rw [rewrite_of_container g rfl]
      refine .definitionList (forall₂_map fun entry he => .mk (forall₂_map fun c hc => ?_)
        (forall₂_map fun body hb => forall₂_map fun c hc => ?_))
      · exact ih c (List.mem_flatMap.mpr ⟨entry, he, List.mem_append_left _ hc⟩)
      · exact ih c (List.mem_flatMap.mpr ⟨entry, he,
          List.mem_append_right _ (List.mem_flatten.mpr ⟨body, hb, hc⟩)⟩)
    | _ =>
      rw [rewrite_of_leaf g rfl]
      exact .restated (h _)

end Node

theorem Sections.map_eq_of_alike {α β : Type} {R : α → α → Prop} {g : α → β}
    (same : ∀ a b, R a b → g a = g b) {doc doc' : Sections α} (h : Sections.Alike R doc doc') :
    doc.map g = doc'.map g := by
  have all {l l' : List α} (h : List.Forall₂ R l l') : l.map g = l'.map g :=
    map_eq_of_forall₂ h fun a _ b => same a b
  have brief := map_eq_of_rel h.brief fun a _ b => same a b
  have params := map_eq_of_forall₂ (f := fun p => ParamEntry.mk p.name p.direction (p.body.map g))
    h.params fun p _ p' alike => by rw [alike.1, alike.2.1, all alike.2.2]
  have returns := map_eq_of_rel (f := List.map g) h.returns fun _ _ _ => all
  have retvals := map_eq_of_forall₂ (f := fun r => RetvalEntry.mk r.value (r.body.map g))
    h.retvals fun r _ r' alike => by rw [alike.1, all alike.2]
  have admonitions := map_eq_of_forall₂ (f := fun a => Admonition.mk a.kind a.title (a.body.map g))
    h.admonitions fun a _ a' alike => by rw [alike.1, alike.2.1, all alike.2.2]
  simp only [map, brief, all h.detail, params, returns, retvals, all h.seeAlso, admonitions]

namespace Doc

theorem rewrite_eq_of_alike {g : Node → Node} (blind : ∀ n n', Node.Restated n n' → g n = g n')
    {doc doc' : Doc} (h : Doc.Alike doc doc') : doc.rewrite g = doc'.rewrite g :=
  Sections.map_eq_of_alike (fun _ _ alike => Node.rewrite_eq_of_alike blind alike) h

theorem alike_rewrite {g : Node → Node} (h : Node.Restates g) (doc : Doc) :
    Doc.Alike doc (doc.rewrite g) := by
  have all (l : List Node) : List.Forall₂ Node.Alike l (l.map (Node.rewrite g)) :=
    forall₂_map fun n _ => Node.alike_rewrite h n
  exact {
    brief := rel_map fun n _ => Node.alike_rewrite h n
    detail := all doc.detail
    params := forall₂_map fun _ _ => ⟨rfl, rfl, all _⟩
    returns := rel_map fun _ _ => all _
    retvals := forall₂_map fun _ _ => ⟨rfl, all _⟩
    seeAlso := all doc.seeAlso
    admonitions := forall₂_map fun _ _ => ⟨rfl, rfl, all _⟩ }

end Doc

end DocComment
