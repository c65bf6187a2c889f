import DocComment.Proofs.Reference.Resolved

/-!
# Nothing stays pending

Documentation of a resolved model holds nodes at any depth, and what is copied into it holds nodes
again. All of them stand in the documentation of some owner, and there everything is resolved to
what the model has, or broken.
-/

set_option autoImplicit false

namespace DocComment

theorem CountedBy.lt_of_mem {α : Type} {number : α → Nat} {l : List α} (h : CountedBy number l)
    {a : α} (ha : a ∈ l) : number a < l.length := by
  obtain ⟨hi, -⟩ := List.getElem?_eq_some_iff.mp (h.getElem?_of_mem ha)
  exact hi

namespace Model

/-- Something of the model stands at the place that the target says. -/
def Has (m : Model) : Target → Prop
  | .symbol i => i < m.symbols.length
  | .group i => i < m.groups.length
  | .file i => i < m.files.length
  | .anchor i => i < m.anchors.length

theorem has_mapDocs {m : Model} {g : Target → Doc → Doc} {target : Target} :
    (m.mapDocs g).Has target ↔ m.Has target := by
  cases target <;> simp [Has, mapDocs]

/-- Every name belongs to something of the model. -/
theorem has_of_mem_namesOf {m : Model} (numbered : m.Numbered) {name : Text} {target : Target}
    (h : (name, target) ∈ NameTable.namesOf m) : m.Has target := by
  simp only [NameTable.namesOf, List.mem_append, List.mem_mapIdx, List.mem_map, List.mem_flatMap,
    List.mem_filterMap, List.mem_filter, Prod.mk.injEq, Option.map_eq_some_iff] at h
  obtain (((((⟨i, hi, -, rfl⟩ | ⟨g, hg, -, rfl⟩) | ⟨s, hs, -, rfl⟩) | ⟨s, hs, member⟩) |
    ⟨g, ⟨hg, -⟩, -, rfl⟩) | ⟨f, hf, -, rfl⟩) | ⟨f, hf, -, -, -, rfl⟩ := h
  · exact hi
  · exact numbered.groups.lt_of_mem hg
  · exact numbered.symbols.lt_of_mem hs
  · unfold NameTable.memberNames at member
    split at member
    · obtain ⟨separator, -, same⟩ := List.mem_map.mp member
      obtain ⟨-, rfl⟩ := Prod.mk.inj same
      exact numbered.symbols.lt_of_mem hs
    · simp at member
  · exact numbered.groups.lt_of_mem hg
  · exact numbered.files.lt_of_mem hf
  · exact numbered.files.lt_of_mem hf

theorem has_of_find? {m : Model} (numbered : m.Numbered) {written : Text} {target : Target}
    (h : (NameTable.ofModel m).find? written = some target) : m.Has target := by
  obtain ⟨_, _, split, -⟩ := List.lookup_eq_some_iff.mp h
  have listed : (NameTable.plainName written, target) ∈ NameTable.namesOf m := by
    change _ ∈ (NameTable.ofModel m).names
    rw [split]
    simp
  exact has_of_mem_namesOf numbered listed

end Model

/-- A state that resolution leaves behind. -/
def RefStatus.SettledIn (m : Model) : RefStatus → Prop
  | .pending => False
  | .resolved target _ => m.Has target
  | .broken _ => True

/-- A node is not left pending, and a copy has content if and only if it is resolved. -/
def Node.SettledIn (m : Model) : Node → Prop
  | .crossRef _ _ status => status.SettledIn m
  | .copyDoc _ status content =>
    status.SettledIn m ∧
      (content.isSome ↔ ∃ target shown, status = .resolved target shown)
  | _ => True

/-- The nodes of some documentation at any depth, inside copied documentation as well. -/
inductive Doc.Holds : Doc → Node → Prop
  | content {doc : Doc} {n : Node} : n ∈ doc.contents → Holds doc n
  | part {doc : Doc} {n c : Node} : Holds doc n → c ∈ n.parts → Holds doc c
  | copied {doc source : Doc} {written : Text} {status : RefStatus} {n : Node} :
    Holds doc (.copyDoc written status (some source)) → Holds source n → Holds doc n

theorem Doc.mem_nodes_of_mem_contents {doc : Doc} {n : Node} (h : n ∈ doc.contents) :
    n ∈ doc.nodes :=
  List.mem_flatMap.mpr ⟨n, h, n.mem_preorder_self⟩

theorem Node.mem_preorder_of_mem_parts {n c d : Node} (h : c ∈ n.preorder) (hd : d ∈ c.parts) :
    d ∈ n.preorder := by
  induction n using parts_induction with
  | step n ih =>
    rw [preorder_eq] at h ⊢
    refine List.mem_cons_of_mem _ (List.mem_flatMap.mpr ?_)
    obtain rfl | deeper := List.mem_cons.mp h
    · exact ⟨d, hd, d.mem_preorder_self⟩
    · obtain ⟨p, hp, hc⟩ := List.mem_flatMap.mp deeper
      exact ⟨p, hp, ih p hp hc⟩

theorem Doc.mem_nodes_of_mem_parts {doc : Doc} {n c : Node} (h : n ∈ doc.nodes)
    (hc : c ∈ n.parts) : c ∈ doc.nodes := by
  obtain ⟨top, htop, hn⟩ := List.mem_flatMap.mp h
  exact List.mem_flatMap.mpr ⟨top, htop, Node.mem_preorder_of_mem_parts hn hc⟩

theorem Doc.holds_of_mem_nodes {doc : Doc} {n : Node} (h : n ∈ doc.nodes) : Doc.Holds doc n := by
  obtain ⟨top, mem, inside⟩ := List.mem_flatMap.mp h
  have held := Doc.Holds.content mem
  clear mem
  induction top using Node.parts_induction with
  | step top ih =>
    rw [Node.preorder_eq] at inside
    obtain rfl | deeper := List.mem_cons.mp inside
    · exact held
    · obtain ⟨part, mem, inside⟩ := List.mem_flatMap.mp deeper
      exact ih part mem inside (.part held mem)

section

variable {m : Model} (numbered : m.Numbered)

include numbered

theorem Node.settledIn_rewrite (n : Node) :
    (n.rewrite (m.indexed.settleNode m.resolve.1.ownDoc?)).SettledIn m.resolve.1 := by
  have valid {written : Text} {found : Target}
      (finds : (NameTable.ofModel m.indexed).find? written = some found) :
      m.resolve.1.Has found := by
    rw [Model.resolve_eq numbered, Model.has_mapDocs]
    exact Model.has_of_find? (Model.indexed_numbered numbered) finds
  generalize became : n.rewrite (m.indexed.settleNode m.resolve.1.ownDoc?) = n'
  cases n' with
  | crossRef target shown status =>
    obtain ⟨found, text, finds, rfl⟩ | ⟨-, rfl⟩ := crossRef_of_rewrite became
    · exact valid finds
    · trivial
  | copyDoc written status content =>
    obtain ⟨found, result, rfl, rfl⟩ | ⟨reason, result, rfl, rfl⟩ := copyDoc_of_rewrite became
    · obtain ⟨finds, documented, -⟩ := Model.outcome_ok.mp result
      refine ⟨valid finds, iff_of_true ?_ ⟨found, written, rfl⟩⟩
      rw [Model.ownDoc?_resolve_eq numbered, Option.isSome_map]
      exact Option.isSome_iff_ne_none.mpr documented
    · exact ⟨trivial, by simp⟩
  | _ => trivial

/-- What is copied is the documentation of an owner. -/
theorem ownDoc_of_copied {u : Target} {doc source : Doc} {written : Text} {status : RefStatus}
    (own : m.resolve.1.ownDoc? u = some doc)
    (h : Node.copyDoc written status (some source) ∈ doc.nodes) :
    ∃ v, m.resolve.1.ownDoc? v = some source := by
  obtain ⟨n, became⟩ := Model.exists_rewrite_of_mem_nodes numbered own h
  obtain ⟨found, -, -, copied⟩ | ⟨reason, -, -, none⟩ := Node.copyDoc_of_rewrite became
  · exact ⟨_, copied.symm⟩
  · simp at none

theorem mem_nodes_of_holds {u : Target} {doc : Doc} {n : Node}
    (own : m.resolve.1.ownDoc? u = some doc) (h : Doc.Holds doc n) :
    ∃ v source, m.resolve.1.ownDoc? v = some source ∧ n ∈ Doc.nodes source := by
  induction h generalizing u with
  | content h => exact ⟨u, _, own, Doc.mem_nodes_of_mem_contents h⟩
  | part _ hc ih =>
    obtain ⟨v, source, own', hn⟩ := ih own
    exact ⟨v, source, own', Doc.mem_nodes_of_mem_parts hn hc⟩
  | copied _ _ ih ih' =>
    obtain ⟨v, around, own', hn⟩ := ih own
    obtain ⟨w, own''⟩ := ownDoc_of_copied numbered own' hn
    exact ih' own''

theorem settledIn_of_holds {u : Target} {doc : Doc} {n : Node}
    (own : m.resolve.1.ownDoc? u = some doc) (h : Doc.Holds doc n) :
    n.SettledIn m.resolve.1 := by
  obtain ⟨v, source, own', hn⟩ := mem_nodes_of_holds numbered own h
  obtain ⟨before, rfl⟩ := Model.exists_rewrite_of_mem_nodes numbered own' hn
  exact before.settledIn_rewrite numbered

end

/-- In the model of a corpus no reference and no copy is pending at any depth. -/
theorem corpus_settled (options : Options) (files : List SourceFile) {m : Model}
    (h : Model.ofSources? options files = some m) :
    ∀ owner doc, (owner, doc) ∈ m.documented → ∀ n, Doc.Holds doc n → n.SettledIn m := by
  obtain ⟨contributions, -, rfl⟩ := Option.map_eq_some_iff.mp h
  intro owner doc documented n holds
  have numbered := Model.ofContributions_numbered options contributions
  have resolved : (Model.ofContributions options contributions).resolve.1.Numbered := by
    rw [Model.resolve_eq numbered]
    exact Model.mapDocs_numbered (Model.indexed_numbered numbered) _
  exact settledIn_of_holds numbered ((Model.mem_documented resolved).mp documented) holds

/-- A function whose documentation copies that of another one, which refers back to it. -/
def twoFunctions : List SourceFile :=
  let fragment (name comment : String) : SourceFragment :=
    ⟨some ⟨.function, name.toList, name.toList, none⟩, some comment.toList, none, 1⟩
  [⟨"io.h".toList, [], [fragment "read" "/** Reads.\n * @copydoc write */",
    fragment "write" "/** See @ref read for more. */"]⟩]

theorem twoFunctions_settled :
    ∃ m, Model.ofSources? {} twoFunctions = some m ∧ m.documented.length = 2 ∧
      ∀ owner doc, (owner, doc) ∈ m.documented → ∀ n, Doc.Holds doc n → n.SettledIn m := by
  have read : (Model.ofSources? {} twoFunctions).map (·.documented.length) = some 2 := by
    decide +kernel
  obtain ⟨m, h, two⟩ := Option.map_eq_some_iff.mp read
  exact ⟨m, h, two, corpus_settled {} twoFunctions h⟩

end DocComment
