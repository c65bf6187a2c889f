import DocComment.Proofs.Markup.InTurn

/-!
# Edits that follow what was put in

An edit could also go on with whatever the visitor has left in the place of a node. It would then
enter the containers that the visitor has put in, and might never reach the end of them. For a
visitor that writes payloads only it goes no deeper than the document, and it is the edit that goes
on with each node as it was.
-/

set_option autoImplicit false

namespace DocComment

/-- An action that ends, among those that may not. -/
def ending {σ α : Type} (x : StateM σ α) : StateT σ Option α := fun s => some (x.run s)

/-- The actions that may not end, with those that they come down to if they do. -/
def ending.agreement (σ : Type) : Agreement (StateT σ Option) (StateM σ) where
  rel x y := x = ending y
  pure _ := rfl
  bind hx hk := by
    obtain rfl := hx
    obtain rfl := funext hk
    rfl

namespace Node

variable {σ : Type}

/-- Calls `f` on the node and goes on with the parts of what `f` has left in its place. There is no
result where it would have to go deeper than `depth`. -/
def follow (f : Node → StateM σ Node) : Nat → Node → StateT σ Option Node
  | 0, _ => fun _ => none
  | depth + 1, n => do
    let left ← ending (f n)
    left.mapPartsM (follow f depth)

theorem mapPartsM_of_not_isContainer {m : Type → Type} [Monad m] (g : Node → m Node) {n : Node}
    (h : n.isContainer = false) : n.mapPartsM g = pure n := by
  cases n <;> first | rfl | simp [isContainer] at h

/-- A visitor that writes payloads only is not followed anywhere but to the parts of the node. -/
theorem follow_eq_edit {f : Node → StateM σ Node}
    (payloads : ∀ n s, ((f n).run s).1.unfilled = n.unfilled) {depth : Nat} {n : Node}
    (deep : sizeOf n < depth) : follow f depth n = ending (edit f n) := by
  induction depth generalizing n with
  | zero => exact absurd deep (Nat.not_lt_zero _)
  | succ depth ih =>
    have inside : ∀ c ∈ n.parts, follow f depth c = ending (edit f c) := fun c hc =>
      ih (Nat.lt_of_lt_of_le (sizeOf_lt_of_mem_parts hc) (Nat.le_of_lt_succ deep))
    funext s
    change (((f n).run s).1.mapPartsM (follow f depth)).run ((f n).run s).2 = _
    cases h : n.isContainer with
    | true =>
      -- what was left is the container itself, and its parts are smaller than it
      rw [eq_of_unfilled (payloads n s) h, mapPartsM_agree (ending.agreement σ) inside,
        edit_of_isContainer f h]
      rfl
    | false =>
      have leaf := (isContainer_eq_of_unfilled (payloads n s)).trans h
      rw [mapPartsM_of_not_isContainer _ leaf, edit_of_not_isContainer f h]
      rfl

end Node

namespace Doc

variable {σ : Type}

def follow (f : Node → StateM σ Node) (depth : Nat) (doc : Doc) : StateT σ Option Doc :=
  doc.traverse (Node.follow f depth)

theorem follow_eq_edit {f : Node → StateM σ Node}
    (payloads : ∀ n s, ((f n).run s).1.unfilled = n.unfilled) (doc : Doc) :
    ∃ enough, ∀ depth ≥ enough, doc.follow f depth = ending (doc.edit f) := by
  refine ⟨(doc.contents.map sizeOf).sum + 1, fun depth deep => ?_⟩
  refine (ending.agreement σ).traverse fun n hn => Node.follow_eq_edit payloads ?_
  have := List.le_sum_of_mem (List.mem_map_of_mem (f := sizeOf) hn)
  omega

end Doc

end DocComment
