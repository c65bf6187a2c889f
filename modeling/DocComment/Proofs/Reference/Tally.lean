import DocComment.Proofs.Reference.Shown

/-!
# The tally of reports

The search for copies fills the documentation of each owner once, whoever asks for it. So each of
its reports stands for one broken copy in documentation that a symbol, a group or a file has itself,
and what it has reported is what the filled documentation shows.
-/

set_option autoImplicit false

namespace DocComment

namespace Copies

/-- The broken copies in the documentation of an owner. -/
def unfilledIn (p : Target × Doc) : List UnfilledCopy :=
  (p.2.nodes.filterMap Node.brokenCopy?).map fun b => ⟨p.1, b.1, b.2⟩

variable {m : Model} {allowed : Target → Prop} {rest : List UnfilledCopy}

/-- What was reported stands in documentation that is filled, or is in `rest`: the documentation
that is being filled. Each owner is filled once, and only owners that are allowed. -/
structure Tallied (m : Model) (allowed : Target → Prop) (rest : List UnfilledCopy) (s : Copies) :
    Prop where
  failed : s.failed.Perm (s.filled.flatMap unfilledIn ++ rest)
  once : (s.filled.map Prod.fst).Nodup
  allowed : ∀ p ∈ s.filled, allowed p.1
  right : ∀ p ∈ s.filled, m.filled? p.1 = some p.2

theorem empty_tallied (m : Model) (allowed : Target → Prop) : Tallied m allowed [] .empty where
  failed := .refl _
  once := .nil
  allowed p h := by simp [empty] at h
  right p h := by simp [empty] at h

theorem Tallied.fail {s : Copies} (h : Tallied m allowed rest s) (f : UnfilledCopy) :
    Tallied m allowed (rest ++ [f]) { s with failed := s.failed ++ [f] } where
  failed := by simpa using h.failed.append_right [f]
  once := h.once
  allowed := h.allowed
  right := h.right

/-- The reports on documentation that is finished are accounted for by that documentation. -/
theorem Tallied.insert {s : Copies} {u : Target} {doc : Doc}
    (h : Tallied m (fun v => allowed v ∧ v ≠ u) (rest ++ unfilledIn (u, doc)) s) (hu : allowed u)
    (filled : m.filled? u = some doc) :
    Tallied m allowed rest { s with filled := (u, doc) :: s.filled } where
  failed := by
    have moved : (s.filled.flatMap unfilledIn ++ (rest ++ unfilledIn (u, doc))).Perm
        (unfilledIn (u, doc) ++ s.filled.flatMap unfilledIn ++ rest) := by
      rw [← List.append_assoc]
      exact List.perm_append_comm.trans (.of_eq (List.append_assoc _ _ _).symm)
    exact h.failed.trans moved
  once := by
    refine List.nodup_cons.mpr ⟨fun again => ?_, h.once⟩
    obtain ⟨p, hp, same⟩ := List.mem_map.mp again
    exact (h.allowed p hp).2 same
  allowed := List.forall_mem_cons.mpr ⟨hu, fun p hp => (h.allowed p hp).1⟩
  right := List.forall_mem_cons.mpr ⟨filled, h.right⟩

theorem Tallied.mono {s : Copies} (h : Tallied m allowed rest s) {allowed' : Target → Prop}
    (more : ∀ p ∈ s.filled, allowed' p.1) : Tallied m allowed' rest s :=
  ⟨h.failed, h.once, more, h.right⟩

theorem Tallied.append_nil {s : Copies} (h : Tallied m allowed rest s) :
    Tallied m allowed (rest ++ []) s := by
  rwa [List.append_nil]

/-- A node is reported if and only if it ends up a broken copy. -/
theorem fillNode_tallied {names : NameTable}
    {source : Target → StateM Copies (Except RefFailure Doc)} (owner : Target) {n : Node}
    {s : Copies} (h : Tallied m allowed rest s)
    (inner : ∀ written found, n.copyTarget? = some written → names.find? written = some found →
      Tallied m allowed rest ((source (m.holder found)).run s).2) :
    let after := (fillNode m names source owner n).run s
    Tallied m allowed
      (rest ++ (after.1.brokenCopy?.map fun b => ⟨owner, b.1, b.2⟩).toList) after.2 := by
  cases n with
  | copyDoc written status content =>
    cases finds : names.find? written with
    | none =>
      simp only [fillNode, finds]
      exact h.fail ⟨owner, written, .notFound⟩
    | some found =>
      have asked := inner written found rfl finds
      generalize read : (source (m.holder found)).run s = result at asked
      obtain ⟨copied, t⟩ := result
      cases copied with
      | error reason =>
        have run : (fillNode m names source owner (.copyDoc written status content)).run s =
            (.copyDoc written (.broken reason) none,
              { t with failed := t.failed ++ [⟨owner, written, reason⟩] }) := by
          simp only [fillNode, finds, StateT.run_bind, StateT.run_map, read]
          rfl
        rw [run]
        exact asked.fail ⟨owner, written, reason⟩
      | ok doc =>
        have run : (fillNode m names source owner (.copyDoc written status content)).run s =
            (.copyDoc written (.resolved found written) (some doc), t) := by
          simp only [fillNode, finds, StateT.run_bind, StateT.run_map, read]
          rfl
        rw [run]
        exact asked.append_nil
  | _ => exact h.append_nil

variable {known : List Target}

/-- Filling the nodes of the documentation of `owner`, if the search keeps the tally one level
down. -/
theorem fillNodes_tallied {source : Target → StateM Copies (Except RefFailure Doc)}
    {owner : Target} {nodes : List Node}
    (yields : ∀ n ∈ nodes, Yields (Faithful m known)
      (fillNode m (NameTable.ofModel m) source owner n) (m.settle m.filled? n))
    (inner : ∀ n ∈ nodes, ∀ written found, n.copyTarget? = some written →
      (NameTable.ofModel m).find? written = some found → ∀ rest s, Faithful m known s →
        Tallied m allowed rest s → Tallied m allowed rest ((source (m.holder found)).run s).2)
    {s : Copies} (faithful : Faithful m known s) (h : Tallied m allowed rest s) :
    Tallied m allowed
      (rest ++ (nodes.filterMap (Node.brokenCopy? ∘ m.settle m.filled?)).map
        fun b => ⟨owner, b.1, b.2⟩)
      (nodes.foldl
        (fun s n => ((fillNode m (NameTable.ofModel m) source owner n).run s).2) s) := by
  induction nodes generalizing rest s with
  | nil => exact h.append_nil
  | cons n others ih =>
    obtain ⟨value, kept⟩ := yields n List.mem_cons_self s faithful
    have first := fillNode_tallied owner h fun written found asks finds =>
      inner n List.mem_cons_self written found asks finds rest s faithful h
    simp only [value] at first
    have last := ih (fun n hn => yields n (List.mem_cons_of_mem _ hn))
      (fun n hn => inner n (List.mem_cons_of_mem _ hn)) kept first
    rw [List.append_assoc] at last
    rw [List.filterMap_cons]
    cases reported : (m.settle m.filled? n).brokenCopy? with
    | none => simpa [reported] using last
    | some b => simpa [reported] using last

/-- Filling the documentation of `u`, if the search keeps the tally one level down. -/
theorem body_tallied {waiting : List Target} {u : Target} {own : Doc}
    (ownDoc : m.ownDoc? u = some own) (led : LedTo m waiting u)
    (deeper : ∀ v, LedTo m (waiting.erase u) v → ∀ rest s, Faithful m known s →
      Tallied m allowed rest s →
        Tallied m allowed rest ((fill m (NameTable.ofModel m) (waiting.erase u) v).run s).2)
    {s : Copies} (faithful : Faithful m known s) (h : Tallied m allowed rest s) :
    Tallied m allowed (rest ++ unfilledIn (u, own.rewrite (m.settle m.filled?)))
      ((Doc.edit (fillNode m (NameTable.ofModel m)
        (fill m (NameTable.ofModel m) (waiting.erase u)) u) own).run s).2 := by
  have answers (v : Target) (led' : LedTo m (waiting.erase u) v) :
      Yields (Faithful m known) (fill m (NameTable.ofModel m) (waiting.erase u) v) (answer m v) :=
    fun t ht => ⟨(fill_spec led' ht).1, (fill_spec led' ht).2.1⟩
  have nodes := fillNodes_tallied (fun n hn => bodyNode_yields ownDoc led answers hn)
    (fun n hn _ _ asks finds => deeper _ (led.asked ownDoc hn asks finds)) faithful h
  rw [Doc.edit_meets, unfilledIn,
    Doc.filterMap_nodes_rewrite (Model.settle_restates m m.filled?) Node.brokenCopy?_leaf]
  exact nodes

/-- Wherever the search stands, it keeps the tally. -/
theorem fill_tallied {waiting : List Target} {u : Target} (led : LedTo m waiting u)
    (distinct : waiting.Nodup) (ok : ∀ v ∈ waiting, allowed v) {s : Copies}
    (faithful : Faithful m known s) (h : Tallied m allowed rest s) :
    Tallied m allowed rest ((fill m (NameTable.ofModel m) waiting u).run s).2 := by
  induction size : waiting.length using Nat.strong_induction_on
    generalizing waiting u allowed rest s with
  | _ count ih =>
    rw [fill_run]
    cases table : s.filled.lookup u with
    | some doc => exact h
    | none =>
      cases ownDoc : m.ownDoc? u with
      | none => exact h
      | some own =>
        by_cases waits : u ∈ waiting
        · have shorter : (waiting.erase u).length < count := by
            have := List.length_pos_of_mem waits
            rw [List.length_erase_of_mem waits]
            omega
          -- While `u` is being filled nothing else fills it.
          have unfilled : ∀ p ∈ s.filled, allowed p.1 ∧ p.1 ≠ u := by
            refine fun p hp => ⟨h.allowed p hp, ?_⟩
            rintro rfl
            exact absurd (List.lookup_eq_none_iff.mp table p hp) (by simp)
          have others : ∀ v ∈ waiting.erase u, allowed v ∧ v ≠ u := fun v hv =>
            ⟨ok v (List.mem_of_mem_erase hv), fun same => distinct.not_mem_erase (same ▸ hv)⟩
          have body := body_tallied ownDoc led
            (fun v led' rest t ht tallied =>
              ih _ shorter led' (distinct.erase u) others ht tallied rfl)
            faithful (h.mono unfilled)
          have filled : m.filled? u = some (own.rewrite (m.settle m.filled?)) := by
            rw [Model.filled?_eq, ownDoc, Option.map_some]
          obtain ⟨value, -⟩ := body_yields ownDoc led
            (fun v led' t ht => ⟨(fill_spec led' ht).1, (fill_spec led' ht).2.1⟩) s faithful
          simp only [if_pos waits, value]
          exact body.insert (ok u waits) filled
        · simp only [if_neg waits]
          exact h

theorem fills_tallied (numbered : m.Numbered) (order : List Target) {s : Copies}
    (faithful : Faithful m known s) (h : Tallied m (fun _ => True) rest s) :
    Tallied m (fun _ => True) rest
      ((order.mapM (fill m (NameTable.ofModel m) (m.documented.map Prod.fst))).run s).2 := by
  induction order generalizing s with
  | nil =>
    rw [List.mapM_nil]
    exact h
  | cons u others ih =>
    have led := ledTo_documented numbered u
    have first := fill_tallied led (Model.documented_nodup numbered) (fun _ _ => trivial) faithful h
    obtain ⟨-, kept, -⟩ := fill_spec led faithful
    rw [List.mapM_cons]
    exact ih kept first

/-- Filling a model asks for its owners one after another. -/
theorem fillModel_snd (m : Model) (names : NameTable) (s : Copies) :
    ((fillModel m names).run s).2 =
      (((m.documented.map Prod.fst).mapM (fill m names (m.documented.map Prod.fst))).run s).2 := by
  let ask := fill m names (m.documented.map Prod.fst)
  have asks (order : List Target) : Meets ask order (order.mapM ask) := by
    have each : Meets ask (order.flatMap fun u => [u]) (order.mapM ask) :=
      .mapM fun u _ => .single u
    rwa [List.flatMap_singleton'] at each
  rw [fillModel, Model.traverseDocs_meets, asks, List.foldl_map]
  rfl

/-- The search fills what the graph of copies says, and it reports what that shows. -/
theorem fillModel_failed (numbered : m.Numbered) :
    ((fillModel m (NameTable.ofModel m)).run .empty).2.failed.Perm
      (((m.mapDocs fun _ => Doc.rewrite (m.settle m.filled?)).shown Node.brokenCopy?).map
        fun b => ⟨b.1, b.2.1, b.2.2⟩) := by
  have filledNumbered := Model.mapDocs_numbered numbered fun _ => Doc.rewrite (m.settle m.filled?)
  obtain ⟨-, -, table⟩ := fills_spec numbered (m.documented.map Prod.fst) (empty_faithful m)
  have tallied := fills_tallied numbered (m.documented.map Prod.fst) (empty_faithful m)
    (empty_tallied m _)
  rw [← fillModel_snd] at table tallied
  generalize ((fillModel m (NameTable.ofModel m)).run .empty).2 = s at table tallied
  have same : s.filled.Perm (m.mapDocs fun _ => Doc.rewrite (m.settle m.filled?)).documented := by
    refine (List.perm_ext_iff_of_nodup tallied.once.of_map
      (Model.documented_nodup filledNumbered).of_map).mpr fun ⟨u, doc⟩ => ?_
    rw [Model.mem_documented filledNumbered, Model.ownDoc?_mapDocs numbered, ← Model.filled?_eq]
    refine ⟨tallied.right (u, doc), fun filled => ?_⟩
    have documented : u ∈ m.documented.map Prod.fst := by
      obtain ⟨own, ownDoc, -⟩ := Option.map_eq_some_iff.mp (Model.filled?_eq m u ▸ filled)
      exact List.mem_map_of_mem ((Model.mem_documented numbered).mpr ownDoc)
    obtain ⟨_, _, split, -⟩ := List.lookup_eq_some_iff.mp ((table u documented).trans filled)
    rw [split]
    exact List.mem_append_right _ List.mem_cons_self
  have shows := tallied.failed.trans (.of_eq (List.append_nil _))
  refine shows.trans ((same.flatMap_right unfilledIn).trans (.of_eq ?_))
  rw [Model.shown, List.map_flatMap]
  exact List.flatMap_congr fun p _ => by rw [unfilledIn, List.map_map]; rfl

theorem copy_reports {m : Model} (numbered : m.Numbered) :
    (((fillModel m.linked (NameTable.ofModel m.linked)).run .empty).2.failed.map fun f =>
        m.linked.unresolvedReport f.owner f.target f.reason).Perm
      ((m.resolve.1.shown Node.brokenCopy?).map m.resolve.1.brokenReport) := by
  have failed := fillModel_failed (Model.linked_numbered numbered)
  rw [← Model.resolve_eq_linked numbered] at failed
  refine (failed.map _).trans (.of_eq ?_)
  rw [List.map_map]
  refine List.map_congr_left fun b hb => Model.brokenReport_eq ?_
  have owner := Model.owner_of_mem_shown hb
  rw [Model.fileOf?_resolve numbered owner, Model.linked_eq, Model.fileOf?_indexed _ owner]

end Copies

end DocComment
