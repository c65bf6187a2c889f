import DocComment.Proofs.Markup.Followed

/-!
# What an edit visits

A node has a place: its position in the document, given among the contents of the sections and
then among the parts of each node on the way. A place comes before the places inside it, and these
before the places further on. The nodes of a document stand in this order, and a visitor that
writes payloads only is handed just these nodes, whatever it writes.
-/

set_option autoImplicit false

namespace DocComment

/-! ## Places -/

/-- The nodes are what `at?` finds, one for each place and in the order of the places. -/
def InPlaceOrder (at? : List Nat → Option Node) (nodes : List Node) : Prop :=
  ∃ places : List (List Nat), places.Pairwise (· < ·) ∧ (∀ p, p ∈ places ↔ (at? p).isSome) ∧
    places.map at? = nodes.map some

namespace Node

/-- The node at a place inside a node. The node itself is at the empty place. -/
def at? : Node → List Nat → Option Node
  | n, [] => some n
  | n, i :: p => n.parts[i]?.bind fun c => at? c p

/-- The node at a place inside one of some nodes. -/
def among? (nodes : List Node) : List Nat → Option Node
  | [] => none
  | i :: p => nodes[i]?.bind fun n => n.at? p

theorem at?_eq_among? (n : Node) {p : List Nat} (h : p ≠ []) : n.at? p = among? n.parts p := by
  cases p with
  | nil => exact absurd rfl h
  | cons i q => rfl

theorem ne_nil_of_among? {nodes : List Node} {p : List Nat} (h : (among? nodes p).isSome) :
    p ≠ [] := by
  rintro rfl
  simp [among?] at h

theorem inPlaceOrder_cons {n : Node}
    (h : InPlaceOrder (among? n.parts) (n.parts.flatMap preorder)) :
    InPlaceOrder n.at? n.preorder := by
  obtain ⟨places, sorted, complete, found⟩ := h
  have proper {p : List Nat} (hp : p ∈ places) : p ≠ [] := ne_nil_of_among? ((complete p).mp hp)
  refine ⟨[] :: places, List.pairwise_cons.mpr ⟨fun p hp => ?_, sorted⟩, fun p => ?_, ?_⟩
  · cases p with
    | nil => exact absurd rfl (proper hp)
    | cons i q => exact List.nil_lt_cons i q
  · cases p with
    | nil => simp [at?]
    | cons i q =>
      rw [at?_eq_among? n (List.cons_ne_nil i q), ← complete, List.mem_cons]
      exact or_iff_right (List.cons_ne_nil i q)
  · rw [preorder_eq, List.map_cons, List.map_cons, ← found]
    exact congrArg (some n :: ·) (List.map_congr_left fun p hp => at?_eq_among? n (proper hp))

theorem flatMap_preorder_inPlaceOrder {nodes : List Node}
    (h : ∀ n ∈ nodes, InPlaceOrder n.at? n.preorder) :
    InPlaceOrder (among? nodes) (nodes.flatMap preorder) := by
  -- from the back, since the nodes in front of the last one keep their places
  induction nodes using List.reverseRecOn with
  | nil => exact ⟨[], .nil, fun p => by cases p <;> simp [among?], rfl⟩
  | append_singleton nodes n ih =>
    rw [List.forall_mem_append] at h
    obtain ⟨before, sorted, complete, found⟩ := ih h.1
    obtain ⟨inside, sorted', complete', found'⟩ := h.2 n List.mem_cons_self
    have starts {p : List Nat} (hp : p ∈ before) : ∃ i q, p = i :: q ∧ i < nodes.length := by
      have finds := (complete p).mp hp
      cases p with
      | nil => exact absurd rfl (ne_nil_of_among? finds)
      | cons i q =>
        refine ⟨i, q, rfl, ?_⟩
        by_contra beyond
        simp [among?, List.getElem?_eq_none (Nat.le_of_not_lt beyond)] at finds
    have earlier {i : Nat} (q : List Nat) (hi : i < nodes.length) :
        among? (nodes ++ [n]) (i :: q) = among? nodes (i :: q) := by
      rw [among?, among?, List.getElem?_append_left hi]
    have last (q : List Nat) : among? (nodes ++ [n]) (nodes.length :: q) = n.at? q := by
      rw [among?, List.getElem?_append_right (Nat.le_refl _), Nat.sub_self]
      rfl
    refine ⟨before ++ inside.map (nodes.length :: ·), ?_, fun p => ?_, ?_⟩
    · refine List.pairwise_append.mpr ⟨sorted, ?_, fun p hp r hr => ?_⟩
      · exact sorted'.map _ fun q r h => List.cons_lt_cons_iff.mpr (.inr ⟨rfl, h⟩)
      · obtain ⟨i, q, rfl, hi⟩ := starts hp
        obtain ⟨r, -, rfl⟩ := List.mem_map.mp hr
        exact List.cons_lt_cons_iff.mpr (.inl hi)
    · rw [List.mem_append, complete]
      cases p with
      | nil => simp [among?]
      | cons i q =>
        rcases Nat.lt_trichotomy i nodes.length with hi | rfl | hi
        · have apart : i :: q ∉ inside.map (nodes.length :: ·) := by
            simp [hi.ne']
          rw [earlier q hi]
          exact or_iff_left apart
        · have apart : among? nodes (nodes.length :: q) = none := by
            rw [among?, List.getElem?_eq_none (Nat.le_refl _)]
            rfl
          rw [last, apart, ← complete']
          simp
        · simp [among?, hi.ne, List.getElem?_eq_none hi.le,
            List.getElem?_eq_none (l := nodes ++ [n]) (i := i) (by simpa using hi)]
    · rw [List.map_append, List.map_map, List.flatMap_append, List.map_append, ← found,
        List.flatMap_singleton, ← found']
      congr 1
      · refine List.map_congr_left fun p hp => ?_
        obtain ⟨i, q, rfl, hi⟩ := starts hp
        exact earlier q hi
      · exact List.map_congr_left fun q _ => last q

/-- The nodes in preorder are the nodes at the places, in the order of the places. -/
theorem preorder_inPlaceOrder (n : Node) : InPlaceOrder n.at? n.preorder := by
  induction n using parts_induction with
  | step n ih => exact inPlaceOrder_cons (flatMap_preorder_inPlaceOrder ih)

/-- The visitor `f`, with a list of the nodes that it has been handed. -/
def noting {σ : Type} (f : Node → StateM σ Node) (n : Node) : StateM (σ × List Node) Node :=
  fun s => (((f n).run s.1).1, ((f n).run s.1).2, s.2 ++ [n])

/-- With the actions without the list. -/
def noting.agreement (σ : Type) : Agreement (StateM (σ × List Node)) (StateM σ) where
  rel x y := ∀ s met, (x.run (s, met)).1 = (y.run s).1 ∧ (x.run (s, met)).2.1 = (y.run s).2
  pure _ _ _ := ⟨rfl, rfl⟩
  bind {_ _ x y k k'} hx hk s met := by
    obtain ⟨value, state⟩ := hx s met
    have run : (x >>= k).run (s, met) =
        (k (y.run s).1).run ((y.run s).2, (x.run (s, met)).2.2) := by
      rw [← value, ← state]
      rfl
    rw [run]
    exact hk _ _ _

end Node

namespace Doc

variable {σ : Type}

def at? (doc : Doc) (p : List Nat) : Option Node := Node.among? doc.contents p

theorem nodes_inPlaceOrder (doc : Doc) : InPlaceOrder doc.at? doc.nodes :=
  Node.flatMap_preorder_inPlaceOrder fun n _ => n.preorder_inPlaceOrder

/-- An edit hands its visitor the nodes of the document as it was. -/
theorem edit_noting (f : Node → StateM σ Node) (doc : Doc) (s : σ) :
    (doc.edit (Node.noting f)).run (s, []) =
      (((doc.edit f).run s).1, ((doc.edit f).run s).2, doc.nodes) := by
  have agree : (Node.noting.agreement σ).rel (doc.edit (Node.noting f)) (doc.edit f) :=
    edit_agree _ fun _ _ _ _ => ⟨rfl, rfl⟩
  obtain ⟨value, state⟩ := agree s []
  have each (nodes met : List Node) (s : σ) :
      (nodes.foldl (fun s n => ((Node.noting f n).run s).2) (s, met)).2 = met ++ nodes := by
    induction nodes generalizing met s with
    | nil => rw [List.foldl_nil, List.append_nil]
    | cons n rest ih =>
      rw [List.foldl_cons, ← List.singleton_append (l := rest), ← List.append_assoc]
      exact ih _ _
  have met : ((doc.edit (Node.noting f)).run (s, [])).2.2 = doc.nodes := by
    rw [edit_meets (Node.noting f)]
    exact each doc.nodes [] s
  exact Prod.ext value (Prod.ext state met)

/-- The nodes of a document are all that is anywhere in its sections, copied documentation apart:
each place once, what is around a node before it, and the rest in document order. A visitor that
writes payloads only is handed these nodes, one after another, wherever the edit looks for the
parts of a node, in the node as it was or in what the visitor has left. The nodes of the result
are what the visitor made of them, and but for the payloads nothing is changed. -/
theorem edit_takes_nodes_in_turn (f : Node → StateM σ Node)
    (payloads : ∀ n s, ((f n).run s).1.unfilled = n.unfilled) (doc : Doc) (s : σ) :
    InPlaceOrder doc.at? doc.nodes ∧
      (∃ enough, ∀ depth ≥ enough, (doc.follow f depth).run s = some ((doc.edit f).run s)) ∧
      (doc.edit (Node.noting f)).run (s, []) =
        (((doc.edit f).run s).1, ((doc.edit f).run s).2, doc.nodes) ∧
      (nodes ((doc.edit f).run s).1).map Node.hull =
        ((doc.nodes.mapM f).run s).1.map Node.hull ∧
      (nodes ((doc.edit f).run s).1).map (Node.unfilled ∘ Node.hull) =
        doc.nodes.map (Node.unfilled ∘ Node.hull) ∧
      ((doc.edit f).run s).1.map (fun _ => ()) = doc.map fun _ => () := by
  have revises := edit_revises payloads doc
  refine ⟨doc.nodes_inPlaceOrder, ?_, edit_noting f doc s, ?_, unfilled_edit payloads doc s,
    revises.framed s⟩
  · obtain ⟨enough, ends⟩ := follow_eq_edit payloads doc
    exact ⟨enough, fun depth deep => congrFun (ends depth deep) s⟩
  · exact (revises.listed s).trans (List.nil_append _)

/-- Numbers the texts, and answers each request for a copy with a copy that holds another. -/
def stamp : Node → StateM Nat Node
  | .text t => fun k => (.text (Nat.toDigits 10 k ++ ':' :: t), k + 1)
  | .copyDoc target status _ => fun k =>
    (.copyDoc target status (some { brief := some (.copyDoc target .pending none) }), k)
  | n => fun k => (n, k)

/-- Texts at several depths, a term with a definition, a cell and a request for a copy. -/
def stamped : Doc where
  brief := some (.paragraph [.text ['a'], .styled .strong [.text ['b']]])
  detail := [.definitionList [⟨[.text ['c']], [[.text ['d']]]⟩],
    .table ⟨[], [⟨true, [⟨1, 1, false, [.text ['e']]⟩]⟩]⟩]
  returns := some [.copyDoc ['f'] .pending none]

theorem stamp_takes_nodes_in_turn :
    (∀ n s, ((stamp n).run s).1.unfilled = n.unfilled) ∧ InPlaceOrder stamped.at? stamped.nodes ∧
      (∃ enough, ∀ depth ≥ enough,
        (stamped.follow stamp depth).run 0 = some ((stamped.edit stamp).run 0)) ∧
      ((stamped.edit (Node.noting stamp)).run (0, [])).2 = (5, stamped.nodes) := by
  have payloads (n : Node) (s : Nat) : ((stamp n).run s).1.unfilled = n.unfilled := by
    cases n <;> rfl
  obtain ⟨places, follows, visits, -⟩ := edit_takes_nodes_in_turn stamp payloads stamped 0
  exact ⟨payloads, places, follows, congrArg Prod.snd visits⟩

end Doc

end DocComment
