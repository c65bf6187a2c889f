import DocComment.Proofs.Markup.Edit

/-!
# The order of an edit

An edit meets the nodes in preorder, once each, and whatever happens to the state happens there.
-/

set_option autoImplicit false

namespace DocComment

section

variable {σ α β γ δ : Type}

/-- The action meets some things one after another, and all that it does to the state is what `f`
does to it at each of them. -/
def Meets (f : α → StateM σ β) (met : List α) (x : StateM σ γ) : Prop :=
  ∀ s, (x.run s).2 = met.foldl (fun s a => ((f a).run s).2) s

namespace Meets

variable {f : α → StateM σ β} {met later : List α}

theorem pure (c : γ) : Meets f [] (Pure.pure c) := fun _ => rfl

theorem single (a : α) : Meets f [a] (f a) := fun _ => rfl

theorem bind {x : StateM σ γ} (hx : Meets f met x) {g : γ → StateM σ δ}
    (hg : ∀ c, Meets f later (g c)) : Meets f (met ++ later) (x >>= g) := by
  intro s
  rw [List.foldl_append, ← hx s]
  exact hg _ _

/-- For an action after which only its result is put together. -/
theorem andPure {x : StateM σ γ} (hx : Meets f met x) (g : γ → δ) :
    Meets f met (x >>= fun c => Pure.pure (g c)) := hx

theorem mapM {l : List γ} {inside : γ → List α} {g : γ → StateM σ δ}
    (h : ∀ c ∈ l, Meets f (inside c) (g c)) : Meets f (l.flatMap inside) (l.mapM g) := by
  induction l with
  | nil =>
    rw [List.mapM_nil]
    exact .pure []
  | cons c rest ih =>
    rw [List.mapM_cons, List.flatMap_cons]
    have others := ih fun d hd => h d (List.mem_cons_of_mem _ hd)
    exact (h c List.mem_cons_self).bind fun _ => others.andPure _

theorem optionMapM {o : Option γ} {inside : γ → List α} {g : γ → StateM σ δ}
    (h : ∀ c ∈ o, Meets f (inside c) (g c)) : Meets f (o.toList.flatMap inside) (o.mapM g) := by
  cases o with
  | none => exact .pure none
  | some c =>
    rw [Option.toList_some, List.flatMap_singleton]
    exact (h c rfl).andPure some

end Meets

end

namespace Node

section

variable {α : Type} (g : Node → List α)

theorem flatMap_parts_list (ordered : Bool) (items : List (ListItem Node)) :
    (list ordered items).parts.flatMap g = items.flatMap fun item => item.body.flatMap g :=
  List.flatMap_assoc

theorem flatMap_parts_table (t : Table Node) : (table t).parts.flatMap g =
    t.rows.flatMap fun row => row.cells.flatMap fun cell => cell.body.flatMap g := by
  simp only [parts, List.flatMap_assoc]

theorem flatMap_parts_definitionList (entries : List (TermEntry Node)) :
    (definitionList entries).parts.flatMap g = entries.flatMap fun entry =>
      entry.term.flatMap g ++ entry.definitions.flatMap (List.flatMap g) := by
  simp only [parts, List.flatMap_assoc, List.flatMap_append, ← List.flatMap_id]
  rfl

end

theorem mapPartsM_meets {σ : Type} {f g : Node → StateM σ Node} {inside : Node → List Node}
    {n : Node} (h : ∀ c ∈ n.parts, Meets f (inside c) (g c)) :
    Meets f (n.parts.flatMap inside) (n.mapPartsM g) := by
  cases n with
  | paragraph | styled | link | blockQuote => exact (Meets.mapM h).andPure _
  | list ordered items =>
    rw [flatMap_parts_list]
    have each : ∀ item ∈ items, Meets f (item.body.flatMap inside) (item.mapM g) := fun item hi =>
      (Meets.mapM fun c hc => h c (List.mem_flatMap.mpr ⟨item, hi, hc⟩)).andPure _
    exact (Meets.mapM each).andPure _
  | table t =>
    rw [flatMap_parts_table]
    have rows : ∀ row ∈ t.rows, Meets f
        (row.cells.flatMap fun cell => cell.body.flatMap inside) (row.mapM g) := fun row hr => by
      have cells : ∀ cell ∈ row.cells, Meets f (cell.body.flatMap inside) (cell.mapM g) :=
        fun cell hcell => (Meets.mapM fun c hc =>
          h c (List.mem_flatMap.mpr ⟨row, hr, List.mem_flatMap.mpr ⟨cell, hcell, hc⟩⟩)).andPure _
      exact (Meets.mapM cells).andPure _
    exact (Meets.mapM rows).andPure _
  | definitionList entries =>
    rw [flatMap_parts_definitionList]
    have each : ∀ entry ∈ entries, Meets f
        (entry.term.flatMap inside ++ entry.definitions.flatMap (List.flatMap inside))
        (entry.mapM g) := fun entry he => by
      have inner := fun c hc => h c (List.mem_flatMap.mpr ⟨entry, he, hc⟩)
      have term := Meets.mapM (l := entry.term) fun c hc => inner c (List.mem_append_left _ hc)
      have definitions := Meets.mapM (l := entry.definitions) (g := fun body => body.mapM g)
        fun body hb => Meets.mapM fun c hc =>
          inner c (List.mem_append_right _ (List.mem_flatten.mpr ⟨body, hb, hc⟩))
      exact term.bind fun _ => definitions.andPure _
    exact (Meets.mapM each).andPure _
  | _ => exact .pure _

/-- An edit meets a node and then its parts. -/
theorem edit_meets {σ : Type} (f : Node → StateM σ Node) (n : Node) :
    Meets f n.preorder (edit f n) := by
  induction n using parts_induction with
  | step n ih =>
    rw [preorder_eq, ← List.singleton_append]
    cases h : n.isContainer with
    | true =>
      rw [edit_of_isContainer f h]
      exact (Meets.single n).bind fun _ => mapPartsM_meets ih
    | false =>
      rw [edit_of_not_isContainer f h, parts_of_not_isContainer h]
      exact .single n

end Node

theorem Sections.flatMap_contents {α β : Type} (g : α → List β) (doc : Sections α) :
    doc.contents.flatMap g =
      doc.brief.toList.flatMap g ++ (doc.detail.flatMap g ++
        ((doc.params.flatMap fun p => p.body.flatMap g) ++
          ((doc.returns.toList.flatMap fun body => body.flatMap g) ++
            ((doc.retvals.flatMap fun r => r.body.flatMap g) ++
              (doc.seeAlso.flatMap g ++
                doc.admonitions.flatMap fun a => a.body.flatMap g))))) := by
  cases h : doc.returns <;> simp [contents, h, List.flatMap_assoc]

theorem Sections.traverse_meets {σ α β γ : Type} {f : γ → StateM σ β} {inside : α → List γ}
    {g : α → StateM σ α} (h : ∀ c, Meets f (inside c) (g c)) (doc : Sections α) :
    Meets f (doc.contents.flatMap inside) (doc.traverse g) := by
  have all (l : List α) : Meets f (l.flatMap inside) (l.mapM g) := .mapM fun c _ => h c
  have brief : Meets f (doc.brief.toList.flatMap inside) (doc.brief.mapM g) :=
    .optionMapM fun c _ => h c
  have params : Meets f (doc.params.flatMap fun p => p.body.flatMap inside)
      (doc.params.mapM fun p => return ParamEntry.mk p.name p.direction (← p.body.mapM g)) :=
    .mapM fun p _ => (all p.body).andPure _
  have returns : Meets f (doc.returns.toList.flatMap fun body => body.flatMap inside)
      (doc.returns.mapM fun body => body.mapM g) := .optionMapM fun body _ => all body
  have retvals : Meets f (doc.retvals.flatMap fun r => r.body.flatMap inside)
      (doc.retvals.mapM fun r => return RetvalEntry.mk r.value (← r.body.mapM g)) :=
    .mapM fun r _ => (all r.body).andPure _
  have admonitions : Meets f (doc.admonitions.flatMap fun a => a.body.flatMap inside)
      (doc.admonitions.mapM fun a => return Admonition.mk a.kind a.title (← a.body.mapM g)) :=
    .mapM fun a _ => (all a.body).andPure _
  rw [flatMap_contents]
  exact brief.bind fun _ => (all doc.detail).bind fun _ => params.bind fun _ =>
    returns.bind fun _ => retvals.bind fun _ => (all doc.seeAlso).bind fun _ =>
      admonitions.andPure _

theorem Doc.edit_meets {σ : Type} (f : Node → StateM σ Node) (doc : Doc) :
    Meets f doc.nodes (doc.edit f) :=
  Sections.traverse_meets (fun n => Node.edit_meets f n) doc

end DocComment
