import DocComment.Proofs.Markup.EditOrder

/-!
# Visitors that write payloads only

A visitor may put another text into a text, another status into a reference and other content
into a request for a copy. An edit by such a visitor does what the visitor does when it is handed
the nodes one after another, and leaves everything else as it was.
-/

set_option autoImplicit false

namespace DocComment

namespace Node

/-- The container with a break in the place of each of its parts. -/
def hull (n : Node) : Node := n.mapParts fun _ => .hardBreak

/-- The node without the payload that a visitor may write. -/
def unfilled : Node → Node
  | .text _ => .text []
  | .crossRef target shown _ => .crossRef target shown .pending
  | .copyDoc target _ _ => .copyDoc target .pending none
  | n => n

@[simp] theorem isContainer_unfilled (n : Node) : n.unfilled.isContainer = n.isContainer := by
  cases n <;> rfl

theorem unfilled_of_isContainer {n : Node} (h : n.isContainer = true) : n.unfilled = n := by
  cases n <;> first | rfl | simp [isContainer] at h

theorem hull_of_not_isContainer {n : Node} (h : n.isContainer = false) : n.hull = n := by
  cases n <;> first | rfl | simp [isContainer] at h

theorem preorder_of_not_isContainer {n : Node} (h : n.isContainer = false) : n.preorder = [n] := by
  rw [preorder_eq, parts_of_not_isContainer h, List.flatMap_nil]

theorem isContainer_eq_of_unfilled {a n : Node} (h : a.unfilled = n.unfilled) :
    a.isContainer = n.isContainer := by
  rw [← isContainer_unfilled a, h, isContainer_unfilled]

theorem eq_of_unfilled {a n : Node} (h : a.unfilled = n.unfilled)
    (container : n.isContainer = true) : a = n := by
  have same := isContainer_eq_of_unfilled h
  rwa [unfilled_of_isContainer container, unfilled_of_isContainer (same.trans container)] at h

theorem unfilled_hull_eq {a n : Node} (h : a.unfilled = n.unfilled) :
    a.hull.unfilled = n.hull.unfilled := by
  cases container : n.isContainer with
  | true => rw [eq_of_unfilled h container]
  | false =>
    rwa [hull_of_not_isContainer container,
      hull_of_not_isContainer ((isContainer_eq_of_unfilled h).trans container)]

end Node

section

variable {σ α β γ δ φ ψ : Type}

/-- The action hands the nodes in `met` to `f`, one after another, and does nothing else to the
state. Of its result, `frame` is always `a`, and `out` lists what `f` made of the nodes, behind
`front` and without what is inside them. -/
structure Revises (f : Node → StateM σ Node) (met front : List Node) (frame : γ → φ)
    (out : γ → List Node) (a : φ) (x : StateM σ γ) : Prop where
  state : ∀ s, (x.run s).2 = ((met.mapM f).run s).2
  framed : ∀ s, frame (x.run s).1 = a
  listed : ∀ s, out (x.run s).1 = front ++ ((met.mapM f).run s).1.map Node.hull

namespace Revises

variable {f : Node → StateM σ Node} {met later front : List Node} {frame : γ → φ}
  {out : γ → List Node} {a : φ}

theorem pure {c : γ} (framed : frame c = a) (listed : out c = front) :
    Revises f [] front frame out a (Pure.pure c) where
  state _ := by
    rw [List.mapM_nil]
    rfl
  framed _ := framed
  listed _ := by
    rw [List.mapM_nil]
    exact listed.trans (List.append_nil front).symm

/-- For an action after which only its result is put together. -/
theorem andPure {x : StateM σ γ} (hx : Revises f met [] frame out a x) {frame' : δ → ψ}
    {out' : δ → List Node} {b : ψ} {k : γ → δ}
    (h : ∀ c, frame c = a → frame' (k c) = b ∧ out' (k c) = front ++ out c) :
    Revises f met front frame' out' b (x >>= fun c => Pure.pure (k c)) where
  state := hx.state
  framed s := (h _ (hx.framed s)).1
  listed s := (h _ (hx.framed s)).2.trans (congrArg (front ++ ·) (hx.listed s))

theorem weaken {x : StateM σ γ} (hx : Revises f met [] frame out a x) {frame' : γ → ψ}
    {out' : γ → List Node} {b : ψ}
    (h : ∀ c, frame c = a → frame' c = b ∧ out' c = front ++ out c) :
    Revises f met front frame' out' b x := hx.andPure h

theorem bind {x : StateM σ γ} (hx : Revises f met [] frame out a x) {frame' : δ → ψ}
    {out' : δ → List Node} {b : ψ} {k : γ → StateM σ δ}
    (hk : ∀ c, frame c = a → Revises f later (front ++ out c) frame' out' b (k c)) :
    Revises f (met ++ later) front frame' out' b (x >>= k) := by
  have next (s : σ) := hk _ (hx.framed s)
  have split (s : σ) : ((met ++ later).mapM f).run s =
      (((met.mapM f).run s).1 ++ ((later.mapM f).run ((met.mapM f).run s).2).1,
        ((later.mapM f).run ((met.mapM f).run s).2).2) := by
    rw [List.mapM_append]
    rfl
  refine ⟨fun s => ?_, fun s => (next s).framed _, fun s => ?_⟩
  · rw [split, ← hx.state]
    exact (next s).state _
  · rw [split, List.map_append, ← hx.state, ← List.append_assoc]
    refine ((next s).listed _).trans ?_
    rw [hx.listed s, List.nil_append]
    rfl

theorem mapM {l : List α} {inside : α → List Node} {frames : α → φ} {g : α → StateM σ γ}
    (h : ∀ c ∈ l, Revises f (inside c) [] frame out (frames c) (g c)) :
    Revises f (l.flatMap inside) [] (List.map frame) (List.flatMap out) (l.map frames)
      (l.mapM g) := by
  induction l with
  | nil =>
    rw [List.mapM_nil]
    exact .pure rfl rfl
  | cons c rest ih =>
    rw [List.mapM_cons, List.flatMap_cons]
    have others := ih fun d hd => h d (List.mem_cons_of_mem _ hd)
    refine (h c List.mem_cons_self).bind fun d hd => others.andPure fun ds hds => ⟨?_, rfl⟩
    rw [List.map_cons, List.map_cons, hd, hds]

theorem optionMapM {o : Option α} {inside : α → List Node} {frames : α → φ} {g : α → StateM σ γ}
    (h : ∀ c ∈ o, Revises f (inside c) [] frame out (frames c) (g c)) :
    Revises f (o.toList.flatMap inside) [] (Option.map frame) (fun r => r.toList.flatMap out)
      (o.map frames) (o.mapM g) := by
  cases o with
  | none => exact .pure rfl rfl
  | some c =>
    rw [Option.toList_some, List.flatMap_singleton]
    refine (h c rfl).andPure fun d hd => ⟨congrArg some hd, ?_⟩
    rw [Option.toList_some, List.flatMap_singleton, List.nil_append]

end Revises

end

namespace Node

variable {σ : Type} {f : Node → StateM σ Node}

theorem mapPartsM_revises {g : Node → StateM σ Node} {inside out : Node → List Node} {n : Node}
    (h : ∀ c ∈ n.parts, Revises f (inside c) [] (fun _ => hardBreak) out hardBreak (g c)) :
    Revises f (n.parts.flatMap inside) [] hull (fun r => r.parts.flatMap out) n.hull
      (n.mapPartsM g) := by
  cases n with
  | paragraph => exact (Revises.mapM h).andPure fun _ hb => ⟨congrArg paragraph hb, rfl⟩
  | styled style => exact (Revises.mapM h).andPure fun _ hb => ⟨congrArg (styled style) hb, rfl⟩
  | link url => exact (Revises.mapM h).andPure fun _ hb => ⟨congrArg (link url) hb, rfl⟩
  | blockQuote => exact (Revises.mapM h).andPure fun _ hb => ⟨congrArg blockQuote hb, rfl⟩
  | list ordered items =>
    rw [flatMap_parts_list]
    have each : ∀ item ∈ items, Revises f (item.body.flatMap inside) []
        (ListItem.map fun _ => hardBreak) (fun i => i.body.flatMap out)
        (item.map fun _ => hardBreak) (item.mapM g) := fun item hi =>
      (Revises.mapM fun c hc => h c (List.mem_flatMap.mpr ⟨item, hi, hc⟩)).andPure
        fun _ hb => ⟨congrArg (ListItem.mk item.depth item.ordered) hb, rfl⟩
    exact (Revises.mapM each).andPure fun _ hs =>
      ⟨congrArg (list ordered) hs, flatMap_parts_list out ordered _⟩
  | table t =>
    rw [flatMap_parts_table]
    have rows : ∀ row ∈ t.rows, Revises f
        (row.cells.flatMap fun cell => cell.body.flatMap inside) []
        (TableRow.map fun _ => hardBreak)
        (fun r => r.cells.flatMap fun cell => cell.body.flatMap out)
        (row.map fun _ => hardBreak) (row.mapM g) := fun row hr => by
      have cells : ∀ cell ∈ row.cells, Revises f (cell.body.flatMap inside) []
          (TableCell.map fun _ => hardBreak) (fun c => c.body.flatMap out)
          (cell.map fun _ => hardBreak) (cell.mapM g) := fun cell hcell =>
        (Revises.mapM fun c hc =>
          h c (List.mem_flatMap.mpr ⟨row, hr, List.mem_flatMap.mpr ⟨cell, hcell, hc⟩⟩)).andPure
          fun _ hb => ⟨congrArg (TableCell.mk cell.span cell.rowSpan cell.mergedUp) hb, rfl⟩
      exact (Revises.mapM cells).andPure fun _ hs => ⟨congrArg (TableRow.mk row.header) hs, rfl⟩
    exact (Revises.mapM rows).andPure fun _ hs =>
      ⟨congrArg (fun rows => table ⟨t.alignment, rows⟩) hs, flatMap_parts_table out _⟩
  | definitionList entries =>
    rw [flatMap_parts_definitionList]
    have each : ∀ entry ∈ entries, Revises f
        (entry.term.flatMap inside ++ entry.definitions.flatMap (List.flatMap inside)) []
        (TermEntry.map fun _ => hardBreak)
        (fun e => e.term.flatMap out ++ e.definitions.flatMap (List.flatMap out))
        (entry.map fun _ => hardBreak) (entry.mapM g) := fun entry he => by
      have inner := fun c hc => h c (List.mem_flatMap.mpr ⟨entry, he, hc⟩)
      have term := Revises.mapM (l := entry.term) fun c hc => inner c (List.mem_append_left _ hc)
      have definitions := Revises.mapM (l := entry.definitions) (g := fun body => body.mapM g)
        fun body hb => Revises.mapM fun c hc =>
          inner c (List.mem_append_right _ (List.mem_flatten.mpr ⟨body, hb, hc⟩))
      exact term.bind fun _ ht => definitions.andPure fun _ hd =>
        ⟨congrArg₂ TermEntry.mk ht hd, rfl⟩
    exact (Revises.mapM each).andPure fun _ hs =>
      ⟨congrArg definitionList hs, flatMap_parts_definitionList out _⟩
  | _ => exact .pure rfl rfl

/-- An edit by a visitor that writes payloads only is what the visitor does to the nodes in
preorder. -/
theorem edit_revises (payloads : ∀ n s, ((f n).run s).1.unfilled = n.unfilled) (n : Node) :
    Revises f n.preorder [] (fun _ => hardBreak) (fun r => r.preorder.map hull) hardBreak
      (edit f n) := by
  induction n using parts_induction with
  | step n ih =>
    cases h : n.isContainer with
    | true =>
      rw [edit_of_isContainer f h, preorder_eq, ← List.singleton_append]
      -- a container holds no payload of its own, so the visitor has left it as it was
      have here : Revises f [n] [] id (fun a => [a.hull]) n (f n) :=
        ⟨fun s => rfl, fun s => eq_of_unfilled (payloads n s) h, fun s => rfl⟩
      refine here.bind fun c hc => (mapPartsM_revises ih).weaken fun r hr => ⟨rfl, ?_⟩
      rw [preorder_eq, List.map_cons, hr, List.map_flatMap, show c = n from hc]
      rfl
    | false =>
      rw [edit_of_not_isContainer f h, preorder_of_not_isContainer h]
      refine ⟨fun s => rfl, fun s => rfl, fun s => ?_⟩
      rw [preorder_of_not_isContainer ((isContainer_eq_of_unfilled (payloads n s)).trans h)]
      rfl

end Node

/-- The sections are revised one after another if their contents are. -/
theorem Sections.traverse_revises {σ α β : Type} {f : Node → StateM σ Node}
    {inside : α → List Node} {g : α → StateM σ β} {out : β → List Node}
    (h : ∀ c, Revises f (inside c) [] (fun _ => ()) out () (g c)) (doc : Sections α) :
    Revises f (doc.contents.flatMap inside) [] (Sections.map fun _ => ())
      (fun d => d.contents.flatMap out) (doc.map fun _ => ()) (doc.traverse g) := by
  have all (l : List α) : Revises f (l.flatMap inside) [] (List.map fun _ => ())
      (List.flatMap out) (l.map fun _ => ()) (l.mapM g) := .mapM fun c _ => h c
  have brief := Revises.optionMapM (o := doc.brief) fun c _ => h c
  have params : Revises f (doc.params.flatMap fun p => p.body.flatMap inside) []
      (List.map fun p => ParamEntry.mk p.name p.direction (p.body.map fun _ => ()))
      (List.flatMap fun p => p.body.flatMap out)
      (doc.params.map fun p => ParamEntry.mk p.name p.direction (p.body.map fun _ => ()))
      (doc.params.mapM fun p => return ParamEntry.mk p.name p.direction (← p.body.mapM g)) :=
    .mapM fun p _ => (all p.body).andPure fun _ hb =>
      ⟨congrArg (ParamEntry.mk p.name p.direction) hb, rfl⟩
  have returns := Revises.optionMapM (o := doc.returns) (g := fun body => body.mapM g)
    fun body _ => all body
  have retvals : Revises f (doc.retvals.flatMap fun r => r.body.flatMap inside) []
      (List.map fun r => RetvalEntry.mk r.value (r.body.map fun _ => ()))
      (List.flatMap fun r => r.body.flatMap out)
      (doc.retvals.map fun r => RetvalEntry.mk r.value (r.body.map fun _ => ()))
      (doc.retvals.mapM fun r => return RetvalEntry.mk r.value (← r.body.mapM g)) :=
    .mapM fun r _ => (all r.body).andPure fun _ hb => ⟨congrArg (RetvalEntry.mk r.value) hb, rfl⟩
  have admonitions : Revises f (doc.admonitions.flatMap fun a => a.body.flatMap inside) []
      (List.map fun a => Admonition.mk a.kind a.title (a.body.map fun _ => ()))
      (List.flatMap fun a => a.body.flatMap out)
      (doc.admonitions.map fun a => Admonition.mk a.kind a.title (a.body.map fun _ => ()))
      (doc.admonitions.mapM fun a => return Admonition.mk a.kind a.title (← a.body.mapM g)) :=
    .mapM fun a _ => (all a.body).andPure fun _ hb =>
      ⟨congrArg (Admonition.mk a.kind a.title) hb, rfl⟩
  rw [flatMap_contents]
  refine brief.bind fun b hb => (all doc.detail).bind fun d hd => params.bind fun p hp =>
    returns.bind fun r hr => retvals.bind fun v hv => (all doc.seeAlso).bind fun s hs =>
      admonitions.andPure fun a ha => ⟨?_, ?_⟩
  · rw [map, map, hb, hd, hp, hr, hv, hs, ha]
  · rw [flatMap_contents]
    simp only [List.nil_append, List.append_assoc]

namespace Doc

variable {σ : Type} {f : Node → StateM σ Node}

theorem edit_revises (payloads : ∀ n s, ((f n).run s).1.unfilled = n.unfilled) (doc : Doc) :
    Revises f doc.nodes [] (Sections.map fun _ => ()) (fun d : Doc => d.nodes.map Node.hull)
      (doc.map fun _ => ()) (doc.edit f) := by
  have each (n : Node) : Revises f n.preorder [] (fun _ => ())
      (fun r => r.preorder.map Node.hull) () (n.edit f) :=
    (Node.edit_revises payloads n).weaken fun _ _ => ⟨rfl, rfl⟩
  refine (Sections.traverse_revises each doc).weaken fun d hd => ⟨hd, ?_⟩
  rw [nodes, List.map_flatMap, List.nil_append]

/-- Whatever a visitor that writes payloads only is handed, it leaves the rest alone. -/
theorem unfilled_answers (payloads : ∀ n s, ((f n).run s).1.unfilled = n.unfilled)
    (nodes : List Node) (s : σ) :
    ((nodes.mapM f).run s).1.map (Node.unfilled ∘ Node.hull) =
      nodes.map (Node.unfilled ∘ Node.hull) := by
  induction nodes generalizing s with
  | nil =>
    rw [List.mapM_nil]
    rfl
  | cons n rest ih =>
    rw [List.mapM_cons]
    exact congrArg₂ List.cons (Node.unfilled_hull_eq (payloads n s)) (ih _)

/-- An edit by a visitor that writes payloads only changes nothing else. -/
theorem unfilled_edit (payloads : ∀ n s, ((f n).run s).1.unfilled = n.unfilled) (doc : Doc)
    (s : σ) : (nodes ((doc.edit f).run s).1).map (Node.unfilled ∘ Node.hull) =
      doc.nodes.map (Node.unfilled ∘ Node.hull) := by
  have listed := (edit_revises payloads doc).listed s
  rw [List.nil_append] at listed
  rw [← unfilled_answers payloads doc.nodes s, ← List.map_map, listed, List.map_map]

end Doc

end DocComment
