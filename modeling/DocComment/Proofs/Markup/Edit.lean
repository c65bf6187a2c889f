import DocComment.Proofs.Markup.Parts

/-!
# Edits

Edits in two monads agree wherever they agree on each node. So an edit with a state comes down to
an edit without one if what a node becomes does not depend on the state, as far as an invariant of
the state goes. An edit without a state acts on every node in preorder at once; two of them in a
row are one.
-/

set_option autoImplicit false

namespace DocComment

/-! ## Two monads -/

/-- A relation between the actions of two monads that lasts when actions are put together. -/
structure Agreement (m m' : Type → Type) [Monad m] [Monad m'] where
  rel : ∀ {γ : Type}, m γ → m' γ → Prop
  pure : ∀ {γ : Type} (c : γ), rel (Pure.pure c) (Pure.pure c)
  bind : ∀ {γ δ : Type} {x : m γ} {y : m' γ} {k : γ → m δ} {k' : γ → m' δ},
    rel x y → (∀ c, rel (k c) (k' c)) → rel (x >>= k) (y >>= k')

section

variable {α β : Type} {m : Type → Type} [Monad m]

def ListItem.mapM (g : α → m β) (item : ListItem α) : m (ListItem β) :=
  return ⟨item.depth, item.ordered, ← item.body.mapM g⟩

def TableCell.mapM (g : α → m β) (cell : TableCell α) : m (TableCell β) :=
  return ⟨cell.span, cell.rowSpan, cell.mergedUp, ← cell.body.mapM g⟩

def TableRow.mapM (g : α → m β) (row : TableRow α) : m (TableRow β) :=
  return ⟨row.header, ← row.cells.mapM (TableCell.mapM g)⟩

def TermEntry.mapM (g : α → m β) (entry : TermEntry α) : m (TermEntry β) :=
  return ⟨← entry.term.mapM g, ← entry.definitions.mapM fun body => body.mapM g⟩

namespace Agreement

variable {m' : Type → Type} [Monad m'] (R : Agreement m m') {g : α → m β} {g' : α → m' β}

theorem andPure {γ δ : Type} {x : m γ} {y : m' γ} (h : R.rel x y) (k : γ → δ) :
    R.rel (x >>= fun c => Pure.pure (k c)) (y >>= fun c => Pure.pure (k c)) :=
  R.bind h fun c => R.pure (k c)

variable [LawfulMonad m] [LawfulMonad m']

theorem optionMapM {o : Option α} (h : ∀ a ∈ o, R.rel (g a) (g' a)) :
    R.rel (o.mapM g) (o.mapM g') := by
  cases o with
  | none => exact R.pure none
  | some a =>
    change R.rel (some <$> g a) (some <$> g' a)
    rw [map_eq_pure_bind, map_eq_pure_bind]
    exact R.andPure (h a rfl) some

theorem mapM {l : List α} (h : ∀ a ∈ l, R.rel (g a) (g' a)) : R.rel (l.mapM g) (l.mapM g') := by
  induction l with
  | nil =>
    rw [List.mapM_nil, List.mapM_nil]
    exact R.pure []
  | cons a rest ih =>
    rw [List.mapM_cons, List.mapM_cons]
    have others := ih fun b hb => h b (List.mem_cons_of_mem _ hb)
    exact R.bind (h a List.mem_cons_self) fun b => R.andPure others _

theorem listItem {item : ListItem α} (h : ∀ a ∈ item.body, R.rel (g a) (g' a)) :
    R.rel (item.mapM g) (item.mapM g') := R.andPure (R.mapM h) _

theorem tableCell {cell : TableCell α} (h : ∀ a ∈ cell.body, R.rel (g a) (g' a)) :
    R.rel (cell.mapM g) (cell.mapM g') := R.andPure (R.mapM h) _

theorem tableRow {row : TableRow α}
    (h : ∀ cell ∈ row.cells, ∀ a ∈ cell.body, R.rel (g a) (g' a)) :
    R.rel (row.mapM g) (row.mapM g') :=
  R.andPure (R.mapM fun cell hc => R.tableCell (h cell hc)) _

theorem termEntry {entry : TermEntry α}
    (h : ∀ a ∈ entry.term ++ entry.definitions.flatten, R.rel (g a) (g' a)) :
    R.rel (entry.mapM g) (entry.mapM g') := by
  have term := R.mapM fun a ha => h a (List.mem_append_left _ ha)
  refine R.bind term fun _ => R.andPure (R.mapM fun body hb => R.mapM fun a ha => ?_) _
  exact h a (List.mem_append_right _ (List.mem_flatten.mpr ⟨body, hb, ha⟩))

theorem traverse {doc : Sections α} (h : ∀ a ∈ doc.contents, R.rel (g a) (g' a)) :
    R.rel (doc.traverse g) (doc.traverse g') := by
  simp only [Sections.contents, List.mem_append, List.mem_flatMap, Option.mem_toList] at h
  have brief := R.optionMapM (o := doc.brief) fun a ha => h a (by simp [Option.mem_def.mp ha])
  have detail := R.mapM (l := doc.detail) fun a ha => h a (by simp [ha])
  have params := R.mapM (l := doc.params) fun p hp =>
    R.andPure (R.mapM (l := p.body) fun a ha => h a (by grind)) (ParamEntry.mk p.name p.direction)
  have returns := R.optionMapM (o := doc.returns) fun body hb =>
    R.mapM (l := body) fun a ha => h a (by simp [Option.mem_def.mp hb, ha])
  have retvals := R.mapM (l := doc.retvals) fun r hr =>
    R.andPure (R.mapM (l := r.body) fun a ha => h a (by grind)) (RetvalEntry.mk r.value)
  have seeAlso := R.mapM (l := doc.seeAlso) fun a ha => h a (by simp [ha])
  have admonitions := R.mapM (l := doc.admonitions) fun n hn =>
    R.andPure (R.mapM (l := n.body) fun a ha => h a (by grind)) (Admonition.mk n.kind n.title)
  exact R.bind brief fun _ => R.bind detail fun _ => R.bind params fun _ => R.bind returns fun _ =>
    R.bind retvals fun _ => R.bind seeAlso fun _ => R.andPure admonitions _

end Agreement

end

/-! ## Edits without a state -/

section

variable {α β : Type} (g : α → β)

theorem mapM_id (l : List α) : l.mapM (m := Id) g = l.map g := List.idRun_mapM (f := g)

theorem optionMapM_id (o : Option α) : o.mapM (m := Id) g = o.map g := by
  cases o <;> rfl

theorem ListItem.mapM_id : ListItem.mapM (m := Id) g = ListItem.map g := by
  funext item
  simp only [ListItem.mapM, DocComment.mapM_id]
  rfl

theorem TableCell.mapM_id : TableCell.mapM (m := Id) g = TableCell.map g := by
  funext cell
  simp only [TableCell.mapM, DocComment.mapM_id]
  rfl

theorem TableRow.mapM_id : TableRow.mapM (m := Id) g = TableRow.map g := by
  funext row
  simp only [TableRow.mapM, DocComment.mapM_id, TableCell.mapM_id]
  rfl

theorem TermEntry.mapM_id : TermEntry.mapM (m := Id) g = TermEntry.map g := by
  funext entry
  simp only [TermEntry.mapM, DocComment.mapM_id]
  rfl

end

/-! ## Actions that do not depend on the state -/

/-- In every state with `I` the action gives `a` and keeps `I`. -/
def Yields {σ α : Type} (I : σ → Prop) (x : StateM σ α) (a : α) : Prop :=
  ∀ s, I s → (x.run s).1 = a ∧ I (x.run s).2

namespace Yields

variable {σ α β : Type} {I : σ → Prop}

theorem pure (a : α) : Yields I (Pure.pure a) a := fun _ h => ⟨rfl, h⟩

theorem bind {x : StateM σ α} {a : α} (hx : Yields I x a) {f : α → StateM σ β} {b : β}
    (hf : Yields I (f a) b) : Yields I (x >>= f) b := by
  intro s h
  obtain ⟨value, kept⟩ := hx s h
  change ((f (x.run s).1).run (x.run s).2).1 = b ∧ I ((f (x.run s).1).run (x.run s).2).2
  rw [value]
  exact hf _ kept

theorem map {x : StateM σ α} {a : α} (hx : Yields I x a) (f : α → β) :
    Yields I (f <$> x) (f a) := by
  intro s h
  obtain ⟨value, kept⟩ := hx s h
  exact ⟨congrArg f value, kept⟩

/-- With the action without a state that gives the same. -/
def agreement (I : σ → Prop) : Agreement (StateM σ) Id where
  rel x a := Yields I x a
  pure := pure
  bind hx hk := hx.bind (hk _)

end Yields

namespace Node

section

variable {m : Type → Type} [Monad m]

/-- The same container around parts that are edited in turn. -/
def mapPartsM (g : Node → m Node) : Node → m Node
  | .paragraph body => return .paragraph (← body.mapM g)
  | .styled style body => return .styled style (← body.mapM g)
  | .link url body => return .link url (← body.mapM g)
  | .blockQuote body => return .blockQuote (← body.mapM g)
  | .list ordered items => return .list ordered (← items.mapM (ListItem.mapM g))
  | .table t => return .table ⟨t.alignment, ← t.rows.mapM (TableRow.mapM g)⟩
  | .definitionList entries => return .definitionList (← entries.mapM (TermEntry.mapM g))
  | node => return node

theorem edit_of_not_isContainer (f : Node → m Node) {n : Node} (h : n.isContainer = false) :
    edit f n = f n := by
  cases n with
  | paragraph | styled | link | blockQuote | list | table | definitionList =>
    simp [isContainer] at h
  | _ => rfl

variable [LawfulMonad m] (f : Node → m Node)

theorem editAll_eq (nodes : List Node) : editAll f nodes = nodes.mapM (edit f) := by
  induction nodes with
  | nil => rw [editAll, List.mapM_nil]
  | cons n rest ih => rw [editAll, List.mapM_cons, ih]

theorem editItems_eq (items : List (ListItem Node)) :
    editItems f items = items.mapM (ListItem.mapM (edit f)) := by
  induction items with
  | nil => rw [editItems, List.mapM_nil]
  | cons item rest ih => simp [editItems, ListItem.mapM, List.mapM_cons, ih, editAll_eq]

theorem editCells_eq (cells : List (TableCell Node)) :
    editCells f cells = cells.mapM (TableCell.mapM (edit f)) := by
  induction cells with
  | nil => rw [editCells, List.mapM_nil]
  | cons cell rest ih => simp [editCells, TableCell.mapM, List.mapM_cons, ih, editAll_eq]

theorem editRows_eq (rows : List (TableRow Node)) :
    editRows f rows = rows.mapM (TableRow.mapM (edit f)) := by
  induction rows with
  | nil => rw [editRows, List.mapM_nil]
  | cons row rest ih => simp [editRows, TableRow.mapM, List.mapM_cons, ih, editCells_eq]

theorem editBodies_eq (bodies : List (List Node)) :
    editBodies f bodies = bodies.mapM fun body => body.mapM (edit f) := by
  induction bodies with
  | nil => rw [editBodies, List.mapM_nil]
  | cons body rest ih => rw [editBodies, List.mapM_cons, ih, editAll_eq]

theorem editEntries_eq (entries : List (TermEntry Node)) :
    editEntries f entries = entries.mapM (TermEntry.mapM (edit f)) := by
  induction entries with
  | nil => rw [editEntries, List.mapM_nil]
  | cons entry rest ih =>
    simp [editEntries, TermEntry.mapM, List.mapM_cons, ih, editAll_eq, editBodies_eq]

/-- A container is met first, whatever comes of it, and then its parts are edited. -/
theorem edit_of_isContainer {n : Node} (h : n.isContainer = true) :
    edit f n = f n >>= fun _ => n.mapPartsM (edit f) := by
  cases n with
  | paragraph | styled | link | blockQuote => simp only [edit, mapPartsM, editAll_eq]
  | list => simp only [edit, mapPartsM, editItems_eq]
  | table => simp only [edit, mapPartsM, editRows_eq]
  | definitionList => simp only [edit, mapPartsM, editEntries_eq]
  | _ => simp [isContainer] at h

theorem mapPartsM_agree {m' : Type → Type} [Monad m'] [LawfulMonad m'] (R : Agreement m m')
    {g : Node → m Node} {g' : Node → m' Node} {n : Node} (h : ∀ c ∈ n.parts, R.rel (g c) (g' c)) :
    R.rel (n.mapPartsM g) (n.mapPartsM g') := by
  cases n with
  | paragraph | styled | link | blockQuote => exact R.andPure (R.mapM h) _
  | list ordered items =>
    refine R.andPure (R.mapM fun item hi => R.listItem fun c hc => ?_) _
    exact h c (List.mem_flatMap.mpr ⟨item, hi, hc⟩)
  | table t =>
    refine R.andPure (R.mapM fun row hr => R.tableRow fun cell hcell c hc => ?_) _
    exact h c (List.mem_flatMap.mpr ⟨row, hr, List.mem_flatMap.mpr ⟨cell, hcell, hc⟩⟩)
  | definitionList entries =>
    refine R.andPure (R.mapM fun entry he => R.termEntry fun c hc => ?_) _
    exact h c (List.mem_flatMap.mpr ⟨entry, he, hc⟩)
  | _ => exact R.pure _

/-- Two edits agree if they agree on each node. -/
theorem edit_agree {m' : Type → Type} [Monad m'] [LawfulMonad m'] (R : Agreement m m')
    {f : Node → m Node} {f' : Node → m' Node} (n : Node)
    (h : ∀ x ∈ n.preorder, R.rel (f x) (f' x)) : R.rel (edit f n) (edit f' n) := by
  induction n using parts_induction with
  | step n ih =>
    have here := h n (mem_preorder_self n)
    have inside : ∀ c ∈ n.parts, R.rel (edit f c) (edit f' c) := fun c hc =>
      ih c hc fun x hx => h x (by
        rw [preorder_eq]
        exact List.mem_cons_of_mem _ (List.mem_flatMap.mpr ⟨c, hc, hx⟩))
    cases container : n.isContainer with
    | true =>
      rw [edit_of_isContainer f container, edit_of_isContainer f' container]
      exact R.bind here fun _ => mapPartsM_agree R inside
    | false =>
      rw [edit_of_not_isContainer f container, edit_of_not_isContainer f' container]
      exact here

end

theorem mapPartsM_id (g : Node → Node) (n : Node) : n.mapPartsM (m := Id) g = n.mapParts g := by
  cases n <;> (
    simp only [mapPartsM, mapM_id, ListItem.mapM_id, TableRow.mapM_id, TermEntry.mapM_id]
    rfl)

/-- An edit without a state. -/
def rewrite (g : Node → Node) (n : Node) : Node := edit (m := Id) g n

theorem rewrite_eq (g : Node → Node) (n : Node) :
    n.rewrite g = if n.isContainer then n.mapParts (rewrite g) else g n := by
  split
  next container => exact (edit_of_isContainer (m := Id) g container).trans (mapPartsM_id _ n)
  next leaf => exact edit_of_not_isContainer (m := Id) g (by simpa using leaf)

theorem rewrite_of_container (g : Node → Node) {n : Node} (h : n.isContainer = true) :
    n.rewrite g = n.mapParts (rewrite g) := by
  rw [rewrite_eq, if_pos h]

theorem rewrite_of_leaf (g : Node → Node) {n : Node} (h : n.isContainer = false) :
    n.rewrite g = g n := by
  rw [rewrite_eq, if_neg (by simp [h])]

/-- What is not a container does not become one. -/
def KeepsLeaves (g : Node → Node) : Prop := ∀ n, n.isContainer = false → (g n).isContainer = false

theorem parts_rewrite {g : Node → Node} (leaves : KeepsLeaves g) (n : Node) :
    (n.rewrite g).parts = n.parts.map (rewrite g) := by
  cases h : n.isContainer with
  | true => rw [rewrite_of_container g h, parts_mapParts]
  | false =>
    rw [rewrite_of_leaf g h, parts_of_not_isContainer h, parts_of_not_isContainer (leaves n h)]
    rfl

/-- The nodes of the result are the results of the nodes. -/
theorem preorder_rewrite {g : Node → Node} (leaves : KeepsLeaves g) (n : Node) :
    (n.rewrite g).preorder = n.preorder.map (rewrite g) := by
  induction n using parts_induction with
  | step n ih =>
    rw [preorder_eq, preorder_eq n, parts_rewrite leaves, List.map_cons, List.flatMap_map,
      List.map_flatMap]
    congr 1
    exact List.flatMap_congr ih

theorem rewrite_rewrite {g : Node → Node} (leaves : KeepsLeaves g) (g' : Node → Node) (n : Node) :
    (n.rewrite g).rewrite g' = n.rewrite (g' ∘ g) := by
  induction n using parts_induction with
  | step n ih =>
    cases h : n.isContainer with
    | true =>
      rw [rewrite_of_container g h, rewrite_of_container g' (by simpa using h),
        rewrite_of_container _ h, mapParts_mapParts]
      exact mapParts_congr ih
    | false =>
      rw [rewrite_of_leaf g h, rewrite_of_leaf g' (leaves n h), rewrite_of_leaf _ h]
      rfl

theorem rewrite_congr {g g' : Node → Node} {n : Node}
    (h : ∀ x ∈ n.preorder, x.isContainer = false → g x = g' x) : n.rewrite g = n.rewrite g' := by
  induction n using parts_induction with
  | step n ih =>
    cases hn : n.isContainer with
    | true =>
      rw [rewrite_of_container g hn, rewrite_of_container g' hn]
      refine mapParts_congr fun c hc => ih c hc fun x hx => h x ?_
      rw [preorder_eq]
      exact List.mem_cons_of_mem _ (List.mem_flatMap.mpr ⟨c, hc, hx⟩)
    | false =>
      rw [rewrite_of_leaf g hn, rewrite_of_leaf g' hn]
      exact h n (mem_preorder_self n) hn

end Node

/-! ## Documentation -/

namespace Sections

variable {α β : Type}

def map (g : α → β) (doc : Sections α) : Sections β where
  brief := doc.brief.map g
  detail := doc.detail.map g
  params := doc.params.map fun p => ⟨p.name, p.direction, p.body.map g⟩
  returns := doc.returns.map (List.map g)
  retvals := doc.retvals.map fun r => ⟨r.value, r.body.map g⟩
  seeAlso := doc.seeAlso.map g
  admonitions := doc.admonitions.map fun a => ⟨a.kind, a.title, a.body.map g⟩

theorem contents_map (g : α → β) (doc : Sections α) :
    (doc.map g).contents = doc.contents.map g := by
  cases h : doc.returns <;> cases hb : doc.brief <;>
    simp [contents, map, h, hb, List.map_flatMap, List.flatMap_map]

theorem traverse_id (g : α → β) (doc : Sections α) : doc.traverse (m := Id) g = doc.map g := by
  change Sections.mk (doc.brief.mapM (m := Id) g) (doc.detail.mapM (m := Id) g)
    (doc.params.mapM (m := Id) fun p => ParamEntry.mk p.name p.direction (p.body.mapM (m := Id) g))
    (doc.returns.mapM (m := Id) fun body => body.mapM (m := Id) g)
    (doc.retvals.mapM (m := Id) fun r => RetvalEntry.mk r.value (r.body.mapM (m := Id) g))
    (doc.seeAlso.mapM (m := Id) g)
    (doc.admonitions.mapM (m := Id) fun a =>
      Admonition.mk a.kind a.title (a.body.mapM (m := Id) g)) = doc.map g
  simp only [mapM_id, optionMapM_id]
  rfl

theorem map_map {γ : Type} (g : α → β) (g' : β → γ) (doc : Sections α) :
    (doc.map g).map g' = doc.map (g' ∘ g) := by
  simp [map]

theorem map_congr {g g' : α → β} {doc : Sections α} (h : ∀ c ∈ doc.contents, g c = g' c) :
    doc.map g = doc.map g' := by
  simp only [contents, List.mem_append, List.mem_flatMap, Option.mem_toList] at h
  have brief : doc.brief.map g = doc.brief.map g' := Option.map_congr fun c hc => h c (by simp [hc])
  have detail : doc.detail.map g = doc.detail.map g' :=
    List.map_congr_left fun c hc => h c (by simp [hc])
  have params : doc.params.map (fun p => ParamEntry.mk p.name p.direction (p.body.map g)) =
      doc.params.map fun p => ParamEntry.mk p.name p.direction (p.body.map g') :=
    List.map_congr_left fun p hp => by
      rw [List.map_congr_left fun c hc => h c (by grind)]
  have returns : doc.returns.map (List.map g) = doc.returns.map (List.map g') :=
    Option.map_congr fun body hb =>
      List.map_congr_left fun c hc => h c (by simp [Option.mem_def.mp hb, hc])
  have retvals : doc.retvals.map (fun r => RetvalEntry.mk r.value (r.body.map g)) =
      doc.retvals.map fun r => RetvalEntry.mk r.value (r.body.map g') :=
    List.map_congr_left fun r hr => by
      rw [List.map_congr_left fun c hc => h c (by grind)]
  have seeAlso : doc.seeAlso.map g = doc.seeAlso.map g' :=
    List.map_congr_left fun c hc => h c (by simp [hc])
  have admonitions : doc.admonitions.map (fun a => Admonition.mk a.kind a.title (a.body.map g)) =
      doc.admonitions.map fun a => Admonition.mk a.kind a.title (a.body.map g') :=
    List.map_congr_left fun a ha => by
      rw [List.map_congr_left fun c hc => h c (by grind)]
  simp only [map, brief, detail, params, returns, retvals, seeAlso, admonitions]

end Sections

namespace Doc

def rewrite (g : Node → Node) (doc : Doc) : Doc := doc.map (Node.rewrite g)

theorem edit_agree {m m' : Type → Type} [Monad m] [Monad m'] [LawfulMonad m] [LawfulMonad m']
    (R : Agreement m m') {f : Node → m Node} {f' : Node → m' Node} {doc : Doc}
    (h : ∀ x ∈ doc.nodes, R.rel (f x) (f' x)) : R.rel (doc.edit f) (doc.edit f') :=
  R.traverse fun c hc => Node.edit_agree R c fun x hx => h x (List.mem_flatMap.mpr ⟨c, hc, hx⟩)

theorem edit_id (g : Node → Node) (doc : Doc) : edit (m := Id) g doc = doc.rewrite g :=
  Sections.traverse_id _ doc

/-- If what `f` makes of each node does not depend on the state, neither does the edit. -/
theorem edit_yields {σ : Type} {I : σ → Prop} {f : Node → StateM σ Node} {g : Node → Node}
    {doc : Doc} (h : ∀ x ∈ doc.nodes, Yields I (f x) (g x)) :
    Yields I (doc.edit f) (doc.rewrite g) := by
  rw [← edit_id]
  exact edit_agree (Yields.agreement I) h

theorem nodes_rewrite {g : Node → Node} (leaves : Node.KeepsLeaves g) (doc : Doc) :
    (doc.rewrite g).nodes = doc.nodes.map (Node.rewrite g) := by
  unfold nodes rewrite
  rw [Sections.contents_map, List.flatMap_map, List.map_flatMap]
  exact List.flatMap_congr fun c _ => Node.preorder_rewrite leaves c

theorem rewrite_rewrite {g : Node → Node} (leaves : Node.KeepsLeaves g) (g' : Node → Node)
    (doc : Doc) : (doc.rewrite g).rewrite g' = doc.rewrite (g' ∘ g) := by
  unfold rewrite
  rw [Sections.map_map]
  exact Sections.map_congr fun c _ => Node.rewrite_rewrite leaves g' c

theorem rewrite_congr {g g' : Node → Node} {doc : Doc}
    (h : ∀ x ∈ doc.nodes, x.isContainer = false → g x = g' x) : doc.rewrite g = doc.rewrite g' :=
  Sections.map_congr fun c hc =>
    Node.rewrite_congr fun x hx => h x (List.mem_flatMap.mpr ⟨c, hc, hx⟩)

end Doc

end DocComment
