import DocComment.Proofs.Reference.CopyGraph

/-!
# Filling agrees with the graph

The search keeps a table of filled documentation and knows which owners are being filled. Every
owner that is being filled leads to the one that is asked for, so a copy of it is a cycle; and
what stands in the table was filled by the graph alone, whoever was being filled at that time.
-/

set_option autoImplicit false

namespace DocComment

open Relation

namespace Copies

variable {m : Model}

/-- What the table says is right, and of the owners in `known` it says all there is to say. -/
structure Faithful (m : Model) (known : List Target) (s : Copies) : Prop where
  sound : ∀ u doc, s.filled.lookup u = some doc → m.filled? u = some doc
  kept : ∀ u ∈ known, s.filled.lookup u = m.filled? u

theorem empty_faithful (m : Model) : Faithful m [] .empty where
  sound u doc h := by simp [empty] at h
  kept u h := by simp at h

variable {known : List Target}

theorem Faithful.insert {s : Copies} (h : Faithful m known s) {u : Target} {doc : Doc}
    (filled : m.filled? u = some doc) :
    Faithful m known { s with filled := (u, doc) :: s.filled } where
  sound v other found := by
    rw [List.lookup_cons] at found
    split at found
    next same => rw [eq_of_beq same, filled, ← found]
    next => exact h.sound v other found
  kept v hv := by
    rw [List.lookup_cons]
    split
    next same => rw [eq_of_beq same, filled]
    next => exact h.kept v hv

/-- What a copy gets of the documentation of `u`. -/
noncomputable def answer (m : Model) (u : Target) : Except RefFailure Doc :=
  match m.filled? u with
  | none => .error .undocumented
  | some doc => copy doc

/-- The documented owners that are not waiting lead to `u`, if `u` is documented itself. -/
def LedTo (m : Model) (waiting : List Target) (u : Target) : Prop :=
  (m.ownDoc? u).isSome →
    ∀ x, (m.ownDoc? x).isSome → x ∉ waiting → TransGen m.CopyEdge x u

theorem LedTo.erase {waiting : List Target} {u v : Target} (h : LedTo m waiting u)
    (edge : (m.ownDoc? v).isSome → m.CopyEdge u v) : LedTo m (waiting.erase u) v := by
  intro documented x hx notWaiting
  have last := edge documented
  obtain rfl | other := eq_or_ne x u
  · exact .single last
  · obtain ⟨own, ownDoc, -⟩ := Model.copyEdge_iff.mp (edge documented)
    have before : TransGen m.CopyEdge x u :=
      h (by simp [ownDoc]) x hx fun waits => notWaiting ((List.mem_erase_of_ne other).mpr waits)
    exact before.tail last

theorem fillNode_yields {source : Target → StateM Copies (Except RefFailure Doc)} {owner : Target}
    {n : Node}
    (h : ∀ written found, n.copyTarget? = some written →
      (NameTable.ofModel m).find? written = some found →
        Yields (Faithful m known) (source (m.holder found)) (answer m (m.holder found))) :
    Yields (Faithful m known) (fillNode m (NameTable.ofModel m) source owner n)
      (m.settle m.filled? n) := by
  cases n with
  | copyDoc written status content =>
    cases finds : (NameTable.ofModel m).find? written with
    | none =>
      simp only [fillNode, finds, Model.settle, Model.outcome_notFound.mpr finds]
      exact fun s hs => ⟨rfl, hs.sound, hs.kept⟩
    | some found =>
      have read := (h written found rfl finds).map fun read => read.map (found, ·)
      simp only [fillNode, finds]
      refine read.bind ?_
      cases filled : m.filled? (m.holder found) with
      | none =>
        have fails : m.outcome written = .error .undocumented :=
          Model.outcome_undocumented.mpr ⟨found, finds, Model.filled?_eq_none.mp filled⟩
        simp only [answer, filled, Model.settle, fails]
        exact fun s hs => ⟨rfl, hs.sound, hs.kept⟩
      | some doc =>
        by_cases cyclic : m.LeadsToCycle (m.holder found)
        · have fails : m.outcome written = .error .cycle :=
            Model.outcome_cycle.mpr ⟨found, finds, cyclic⟩
          simp only [answer, filled, (Model.copy_filled filled).1 cyclic, Model.settle, fails]
          exact fun s hs => ⟨rfl, hs.sound, hs.kept⟩
        · have documented : m.docAt? found ≠ none := fun undocumented => by
            simp [Model.filled?_eq_none.mpr undocumented] at filled
          have succeeds : m.outcome written = .ok found :=
            Model.outcome_ok.mpr ⟨finds, documented, cyclic⟩
          simp only [answer, filled, (Model.copy_filled filled).2 cyclic, Model.settle, succeeds]
          exact .pure _
  | _ => exact .pure _

theorem fill_run (m : Model) (names : NameTable) (waiting : List Target) (u : Target)
    (s : Copies) :
    (fill m names waiting u).run s =
      match s.filled.lookup u, m.ownDoc? u with
      | some doc, _ => (copy doc, s)
      | none, none => (.error .undocumented, s)
      | none, some own =>
        if u ∈ waiting then
          let after := (Doc.edit (fillNode m names (fill m names (waiting.erase u)) u) own).run s
          (copy after.1, { after.2 with filled := (u, after.1) :: after.2.filled })
        else (.error .cycle, s) := by
  rw [fill]
  simp only [StateT.run_bind, StateT.run_get, pure_bind]
  cases s.filled.lookup u with
  | some doc => rfl
  | none =>
    cases m.ownDoc? u with
    | none => rfl
    | some own =>
      by_cases waits : u ∈ waiting
      · simp only [waits]
        rfl
      · simp only [waits]
        rfl

/-- A copy in the documentation of `u` asks for an owner that `u` leads to. -/
theorem LedTo.asked {waiting : List Target} {u : Target} (h : LedTo m waiting u) {own : Doc}
    (ownDoc : m.ownDoc? u = some own) {n : Node} (hn : n ∈ own.nodes) {written : Text}
    {found : Target} (asks : n.copyTarget? = some written)
    (finds : (NameTable.ofModel m).find? written = some found) :
    LedTo m (waiting.erase u) (m.holder found) := by
  have asked : written ∈ own.copyTargets := List.mem_filterMap.mpr ⟨n, hn, asks⟩
  exact h.erase fun documented =>
    Model.copyEdge_iff.mpr ⟨own, ownDoc, written, asked, found, finds, rfl, documented⟩

/-- Filling the nodes in the documentation of `u`, if the search answers by the graph one level
down. -/
theorem bodyNode_yields {waiting : List Target} {u : Target} {own : Doc}
    (ownDoc : m.ownDoc? u = some own) (led : LedTo m waiting u)
    (deeper : ∀ v, LedTo m (waiting.erase u) v →
      Yields (Faithful m known) (fill m (NameTable.ofModel m) (waiting.erase u) v) (answer m v))
    {n : Node} (hn : n ∈ own.nodes) :
    Yields (Faithful m known)
      (fillNode m (NameTable.ofModel m) (fill m (NameTable.ofModel m) (waiting.erase u)) u n)
      (m.settle m.filled? n) :=
  fillNode_yields fun _ _ asks finds => deeper _ (led.asked ownDoc hn asks finds)

theorem body_yields {waiting : List Target} {u : Target} {own : Doc}
    (ownDoc : m.ownDoc? u = some own) (led : LedTo m waiting u)
    (deeper : ∀ v, LedTo m (waiting.erase u) v →
      Yields (Faithful m known) (fill m (NameTable.ofModel m) (waiting.erase u) v) (answer m v)) :
    Yields (Faithful m known)
      (Doc.edit (fillNode m (NameTable.ofModel m)
        (fill m (NameTable.ofModel m) (waiting.erase u)) u) own)
      (own.rewrite (m.settle m.filled?)) :=
  Doc.edit_yields fun _ hn => bodyNode_yields ownDoc led deeper hn

/-- Wherever the search stands, it answers by the graph, and an owner that was waiting is in the
table afterwards. -/
theorem fill_spec {waiting : List Target} {u : Target} (led : LedTo m waiting u) {s : Copies}
    (faithful : Faithful m known s) :
    let after := (fill m (NameTable.ofModel m) waiting u).run s
    after.1 = answer m u ∧ Faithful m known after.2 ∧
      (u ∈ waiting → after.2.filled.lookup u = m.filled? u) := by
  induction size : waiting.length using Nat.strong_induction_on generalizing waiting u s with
  | _ count ih =>
    simp only [fill_run]
    cases table : s.filled.lookup u with
    | some doc =>
      have filled := faithful.sound u doc table
      exact ⟨by simp [answer, filled], faithful, fun _ => table.trans filled.symm⟩
    | none =>
      cases ownDoc : m.ownDoc? u with
      | none =>
        have filled : m.filled? u = none := Model.filled?_eq_none.mpr ownDoc
        exact ⟨by simp [answer, filled], faithful, fun _ => table.trans filled.symm⟩
      | some own =>
        have filled : m.filled? u = some (own.rewrite (m.settle m.filled?)) := by
          rw [Model.filled?_eq, ownDoc, Option.map_some]
        by_cases waits : u ∈ waiting
        · have shorter : (waiting.erase u).length < count := by
            have := List.length_pos_of_mem waits
            rw [List.length_erase_of_mem waits]
            omega
          have deeper (v : Target) (led' : LedTo m (waiting.erase u) v) :
              Yields (Faithful m known) (fill m (NameTable.ofModel m) (waiting.erase u) v)
                (answer m v) := by
            intro t ht
            obtain ⟨answers, kept, -⟩ := ih _ shorter led' ht rfl
            exact ⟨answers, kept⟩
          have body := body_yields ownDoc led deeper
          obtain ⟨value, kept⟩ := body s faithful
          simp only [if_pos waits, value, answer, filled, List.lookup_cons_self]
          exact ⟨trivial, kept.insert filled, fun _ => trivial⟩
        · -- An owner that is being filled leads to the one that is asked for, here to itself.
          have loop : TransGen m.CopyEdge u u :=
            led (by simp [ownDoc]) u (by simp [ownDoc]) waits
          have cyclic : copy (own.rewrite (m.settle m.filled?)) = .error .cycle :=
            (Model.copy_filled filled).1 ⟨u, .refl, loop⟩
          simp only [if_neg waits, answer, filled, cyclic]
          exact ⟨trivial, faithful, fun h => absurd h waits⟩

/-- Before anything is filled all documented owners wait. -/
theorem ledTo_documented (numbered : m.Numbered) (u : Target) :
    LedTo m (m.documented.map Prod.fst) u := by
  intro _ x documented notWaiting
  obtain ⟨doc, own⟩ := Option.isSome_iff_exists.mp documented
  exact absurd (List.mem_map_of_mem ((Model.mem_documented numbered).mpr own)) notWaiting

/-- The owners can be asked for in any order. -/
theorem fills_spec (numbered : m.Numbered) (order : List Target) {s : Copies}
    (faithful : Faithful m known s) :
    let after :=
      (order.mapM (fill m (NameTable.ofModel m) (m.documented.map Prod.fst))).run s
    after.1 = order.map (answer m) ∧ Faithful m known after.2 ∧
      ∀ u ∈ order, after.2.filled.lookup u = m.filled? u := by
  induction order generalizing known s with
  | nil =>
    simp only [List.mapM_nil]
    exact ⟨rfl, faithful, fun u h => by simp at h⟩
  | cons u rest ih =>
    obtain ⟨answers, first, table⟩ := fill_spec (ledTo_documented numbered u) faithful
    simp only [List.mapM_cons, StateT.run_bind, StateT.run_pure]
    have added : Faithful m (u :: known)
        ((fill m (NameTable.ofModel m) (m.documented.map Prod.fst) u).run s).2 := by
      refine ⟨first.sound, List.forall_mem_cons.mpr ⟨?_, first.kept⟩⟩
      cases own : m.ownDoc? u with
      | some doc => exact table (List.mem_map_of_mem ((Model.mem_documented numbered).mpr own))
      | none =>
        have filled : m.filled? u = none := Model.filled?_eq_none.mpr own
        rw [filled, Option.eq_none_iff_forall_ne_some]
        intro doc found
        simp [first.sound u doc found] at filled
    obtain ⟨others, last, tables⟩ := ih added
    obtain ⟨same, kept⟩ := List.forall_mem_cons.mp last.kept
    exact ⟨congrArg₂ List.cons answers others, ⟨last.sound, kept⟩,
      List.forall_mem_cons.mpr ⟨same, tables⟩⟩

theorem fillModel_yields (numbered : m.Numbered) :
    Yields (Faithful m known) (fillModel m (NameTable.ofModel m))
      (m.mapDocs fun _ => Doc.rewrite (m.settle m.filled?)) := by
  apply Model.traverseDocs_yields
  intro p hp s faithful
  have ownDoc : m.ownDoc? p.1 = some p.2 := (Model.mem_documented numbered).mp hp
  have waits : p.1 ∈ m.documented.map Prod.fst := List.mem_map_of_mem hp
  obtain ⟨-, kept, table⟩ := fill_spec (ledTo_documented numbered p.1) faithful
  have filled : m.filled? p.1 = some (p.2.rewrite (m.settle m.filled?)) := by
    rw [Model.filled?_eq, ownDoc, Option.map_some]
  exact ⟨congrArg (·.getD p.2) ((table waits).trans filled), kept⟩

end Copies

namespace Model

theorem anchored_numbered {m : Model} (numbered : m.Numbered) : m.anchored.Numbered := by
  have cleared := mapDocs_numbered numbered fun _ => Doc.rewrite clearNode
  unfold anchored
  rw [clear_eq]
  exact ⟨cleared.files, cleared.groups, cleared.symbols⟩

theorem linked_numbered {m : Model} (numbered : m.Numbered) : m.linked.Numbered :=
  mapDocs_numbered (anchored_numbered numbered) _

theorem resolve_eq_linked {m : Model} (numbered : m.Numbered) :
    m.resolve.1 = m.linked.mapDocs fun _ => Doc.rewrite (m.linked.settle m.linked.filled?) := by
  rw [resolve_fst]
  exact (Copies.fillModel_yields (linked_numbered numbered) _ (Copies.empty_faithful _)).1

end Model

end DocComment
