import DocComment.Proofs.Inline.Argument
import DocComment.Proofs.Reference.Complete
import DocComment.Proofs.Reference.Shown

/-!
# The names of anchors

An anchor is known by the whole word that is written for it. A reference asks for less: neither the
punctuation behind its word nor a pair of parentheses belongs to the name. So an anchor is found by
its own word if and only if no punctuation ends the word.
-/

set_option autoImplicit false

namespace DocComment

/-! ## What a reference asks for -/

namespace NameTable

theorem plainName_solid {t : Text} (solid : t.Solid) :
    plainName t = (Text.dropSuffix? ['(', ')'] t).getD t := by
  rw [plainName, solid.trim]

theorem plainName_pair {t : Text} (solid : Text.Solid (t ++ ['(', ')'])) :
    plainName (t ++ ['(', ')']) = t := by
  rw [plainName_solid solid, Text.dropSuffix?_eq_some.2 rfl]
  rfl

theorem length_plainName_le {t : Text} (solid : t.Solid) : (plainName t).length ≤ t.length := by
  rw [plainName_solid solid]
  cases cut : Text.dropSuffix? ['(', ')'] t with
  | none => exact Nat.le_refl _
  | some body =>
    rw [Text.dropSuffix?_eq_some.1 cut]
    simp

/-- The name that a reference asks for if it is written with a word. -/
def asked (w : Text) : Text := plainName (Url.splitPunctuation w).1

theorem asked_solid {t : Text} {c : Char} (solid : Text.Solid (t ++ [c]))
    (h : Url.isTrailing c = false) : asked (t ++ [c]) = t ++ [c] := by
  have whole : Text.dropSuffix? ['(', ')'] (t ++ [c]) = none := by
    cases cut : Text.dropSuffix? ['(', ')'] (t ++ [c]) with
    | none => rfl
    | some body =>
      have ends := congrArg List.getLast? (Text.dropSuffix?_eq_some.1 cut)
      obtain rfl : c = ')' := by simpa using ends
      cases h
  rw [asked, Url.splitPunctuation_solid t h, plainName_solid solid, whole]
  rfl

theorem length_asked_lt {t : Text} {c : Char} (solid : Text.Solid (t ++ [c]))
    (h : Url.isTrailing c = true) : (asked (t ++ [c])).length < (t ++ [c]).length := by
  by_cases pair : c = ')' ∧ t.getLast? = some '('
  · obtain ⟨rfl, last⟩ := pair
    obtain ⟨front, rfl⟩ := List.getLast?_eq_some_iff.1 last
    have written : front ++ ['('] ++ [')'] = front ++ ['(', ')'] := by simp
    rw [written] at solid ⊢
    rw [asked, Url.splitPunctuation_pair, plainName_pair solid]
    simp
  · have cut := Url.splitPunctuation_append t
    have inside : Text.Solid (Url.splitPunctuation t).1 := by
      intro d mem
      apply solid
      rw [← cut]
      simp [mem]
    have shorter := length_plainName_le inside
    rw [asked, Url.splitPunctuation_trailing h (by simpa using pair)]
    have lengths := congrArg List.length cut
    simp only [List.length_append, List.length_singleton] at lengths ⊢
    omega

/-- A reference asks for the word that it is written with if no punctuation ends the word. -/
theorem asked_eq_self {w : Text} (solid : w.Solid) :
    asked w = w ↔ ∀ c ∈ w.getLast?, Url.isTrailing c = false := by
  rcases List.eq_nil_or_concat' w with rfl | ⟨t, c, rfl⟩
  · exact iff_of_true rfl (by simp)
  · have last : (∀ d ∈ (t ++ [c]).getLast?, Url.isTrailing d = false) ↔
        Url.isTrailing c = false := by simp
    rw [last]
    constructor
    · intro same
      by_contra trailing
      have shorter := length_asked_lt solid (by simpa using trailing)
      rw [same] at shorter
      exact Nat.lt_irrefl _ shorter
    · exact asked_solid solid

/-! ## Anchors in the table of names -/

theorem name_of_mem_namesOf {m : Model} {name : Text} {i : Nat}
    (h : (name, Target.anchor i) ∈ namesOf m) : name ∈ m.anchors.map Anchor.name := by
  simp only [namesOf, List.mem_append, List.mem_mapIdx, List.mem_map, List.mem_flatMap,
    List.mem_filterMap, Prod.mk.injEq, Option.map_eq_some_iff, reduceCtorEq, and_false,
    exists_false, or_false] at h
  obtain ⟨j, hj, same, -⟩ | ⟨s, -, member⟩ := h
  · exact List.mem_map.2 ⟨m.anchors[j], List.getElem_mem hj, same⟩
  · unfold memberNames at member
    split at member
    · simp at member
    · cases member

/-- Anchors come first, and nothing else is found as one. -/
theorem find?_anchor {m : Model} {written : Text} :
    (∃ i, (ofModel m).find? written = some (.anchor i)) ↔
      plainName written ∈ m.anchors.map Anchor.name := by
  constructor
  · rintro ⟨i, finds⟩
    obtain ⟨before, after, split, -⟩ := List.lookup_eq_some_iff.mp finds
    have listed : (plainName written, Target.anchor i) ∈ (ofModel m).names := by simp [split]
    exact name_of_mem_namesOf listed
  · intro named
    obtain ⟨a, mem, same⟩ := List.mem_map.1 named
    obtain ⟨j, hj, rfl⟩ := List.mem_iff_getElem.1 mem
    let entries := m.anchors.mapIdx fun i a => (a.name, Target.anchor i)
    obtain ⟨others, split⟩ : ∃ others, (ofModel m).names = entries ++ others := by
      simp only [ofModel, namesOf, List.append_assoc]
      exact ⟨_, rfl⟩
    have listed : (plainName written, Target.anchor j) ∈ entries :=
      List.mem_mapIdx.2 ⟨j, hj, by rw [same]⟩
    rw [find?, split, List.lookup_append]
    cases first : entries.lookup (plainName written) with
    | none => simpa using List.lookup_eq_none_iff.1 first _ listed
    | some found =>
      obtain ⟨before, after, cut, -⟩ := List.lookup_eq_some_iff.1 first
      have inside : (plainName written, found) ∈ entries := by simp [cut]
      obtain ⟨i, hi, entry⟩ := List.mem_mapIdx.1 inside
      exact ⟨i, congrArg some (Prod.mk.inj entry).2.symm⟩

end NameTable

/-! ## Anchors of a model -/

namespace Model

theorem mem_anchorNodes {m : Model} {name : Text} :
    name ∈ m.anchorNodes.map Anchor.name ↔
      ∃ owner doc, (owner, doc) ∈ m.documented ∧ .anchor name ∈ Doc.nodes doc := by
  have names : m.anchorNodes.map Anchor.name = (m.shown Node.anchorName?).map Prod.snd := by
    rw [anchorNodes_eq, List.map_map]
    rfl
  simp only [names, List.mem_map, Prod.exists, mem_shown, Node.anchorName?_eq_some]
  constructor
  · rintro ⟨owner, _, ⟨doc, documented, _, mem, rfl⟩, rfl⟩
    exact ⟨owner, doc, documented, mem⟩
  · rintro ⟨owner, doc, documented, mem⟩
    exact ⟨owner, name, ⟨doc, documented, _, mem, rfl⟩, rfl⟩

section

variable {m : Model} (numbered : m.Numbered)

include numbered

/-- References are looked up in a table that has the anchors of all documentation. -/
theorem mem_anchors_indexed {name : Text} :
    name ∈ m.indexed.anchors.map Anchor.name ↔
      ∃ owner doc, (owner, doc) ∈ m.resolve.1.documented ∧ Doc.Holds doc (.anchor name) := by
  have resolved := resolve_numbered numbered
  have same : m.indexed.anchors = m.resolve.1.anchors := by rw [← anchors_resolve numbered]
  rw [same, anchors_eq numbered, splitAnchors_fst_names, ← anchorNodes_resolve numbered]
  simp only [List.contains_nil, Bool.not_false, List.filter_true, List.mem_eraseDups]
  rw [mem_anchorNodes]
  constructor
  · rintro ⟨owner, doc, documented, mem⟩
    exact ⟨owner, doc, documented, Doc.holds_of_mem_nodes mem⟩
  · rintro ⟨owner, doc, documented, holds⟩
    obtain ⟨owner, doc, own, mem⟩ :=
      mem_nodes_of_holds numbered ((mem_documented resolved).1 documented) holds
    exact ⟨owner, doc, (mem_documented resolved).2 own, mem⟩

/-- A reference becomes one to an anchor if some documentation holds an anchor of the name that it
asks for, and only then. -/
theorem resolved_to_anchor {owner : Target} {doc : Doc} {target : Text} {shown : Option Text}
    {status : RefStatus} (documented : (owner, doc) ∈ m.resolve.1.documented)
    (holds : Doc.Holds doc (.crossRef target shown status)) :
    (∃ i text, status = .resolved (.anchor i) text) ↔
      ∃ owner doc, (owner, doc) ∈ m.resolve.1.documented ∧
        Doc.Holds doc (.anchor (NameTable.plainName target)) := by
  obtain ⟨owner, source, own, mem⟩ :=
    mem_nodes_of_holds numbered ((mem_documented (resolve_numbered numbered)).1 documented) holds
  obtain ⟨before, became⟩ := exists_rewrite_of_mem_nodes numbered own mem
  rw [← mem_anchors_indexed numbered, ← NameTable.find?_anchor]
  obtain ⟨found, text, finds, rfl⟩ | ⟨finds, rfl⟩ := Node.crossRef_of_rewrite became
  · simp [finds]
  · simp [finds]

end

end Model

/-! ## Anchors of a corpus -/

/-- A word that is written for an anchor names it as it is, and a reference that is written with the
same word finds an anchor if and only if some documentation has one of the name that is asked for.
That is the word itself unless punctuation ends it. -/
theorem references_find_anchors (options : Options) (files : List SourceFile) {m : Model}
    (h : Model.ofSources? options files = some m) {w : Text} (solid : w.Solid)
    (core : ∃ c ∈ w, Url.isTrailing c = false) :
    let target := (Url.splitPunctuation w).1
    Inline.parse ("@anchor ".toList ++ w) = [.anchor w] ∧
    (∃ text, Inline.parse ("@ref ".toList ++ w) = .crossRef target none .pending :: text) ∧
    (∀ owner doc, (owner, doc) ∈ m.documented → ∀ shown status,
      Doc.Holds doc (.crossRef target shown status) →
        ((∃ i text, status = .resolved (.anchor i) text) ↔
          ∃ owner doc, (owner, doc) ∈ m.documented ∧
            Doc.Holds doc (.anchor (NameTable.asked w)))) ∧
    (NameTable.asked w = w ↔ ∀ c ∈ w.getLast?, Url.isTrailing c = false) := by
  intro target
  obtain ⟨contributions, -, rfl⟩ := Option.map_eq_some_iff.mp h
  have numbered := Model.ofContributions_numbered options contributions
  have nonempty : w ≠ [] := by
    rintro rfl
    simp at core
  refine ⟨Inline.parse_anchor solid nonempty, ⟨_, Inline.parse_reference solid core⟩, ?_,
    NameTable.asked_eq_self solid⟩
  intro owner doc documented shown status holds
  exact Model.resolved_to_anchor numbered documented holds

/-- What a reference asks for, whatever has become of it. -/
def Node.referenceTarget? : Node → Option Text
  | .crossRef target _ _ => some target
  | _ => none

/-- A function whose documentation holds an anchor and a reference that are written with the same
word. -/
def anchoredFunction (w : Text) : List SourceFile :=
  [⟨"io.h".toList, [], [⟨some ⟨.function, "open".toList, "open".toList, none⟩,
    some ("/** @anchor ".toList ++ w ++ " See @ref ".toList ++ w ++ " */".toList), none, 1⟩]⟩]

theorem spot_found :
    let spot : Text := "spot".toList
    ∃ m, Model.ofSources? {} (anchoredFunction spot) = some m ∧
      ∃ owner doc shown status, (owner, doc) ∈ m.documented ∧
        Doc.Holds doc (.crossRef spot shown status) ∧
        ∃ i text, status = .resolved (.anchor i) text := by
  intro spot
  have read : (Model.ofSources? {} (anchoredFunction spot)).map
      (fun m => (m.shown Node.anchorName?, m.shown Node.referenceTarget?)) =
        some ([(.symbol 0, spot)], [(.symbol 0, spot)]) := by
    decide +kernel
  obtain ⟨m, h, both⟩ := Option.map_eq_some_iff.1 read
  obtain ⟨anchors, references⟩ := Prod.mk.inj both
  have anchor : (.symbol 0, spot) ∈ m.shown Node.anchorName? := by simp [anchors]
  have reference : (.symbol 0, spot) ∈ m.shown Node.referenceTarget? := by simp [references]
  obtain ⟨named, documented, n, mem, same⟩ := Model.mem_shown.1 anchor
  obtain ⟨doc, referring, reference, mem', target⟩ := Model.mem_shown.1 reference
  obtain ⟨shown, status, rfl⟩ : ∃ shown status, reference = .crossRef spot shown status := by
    cases reference <;> cases target
    exact ⟨_, _, rfl⟩
  have solid : spot.Solid := by simp [spot, Text.Solid, Text.isSpace]
  have core : ∃ c ∈ spot, Url.isTrailing c = false := ⟨'s', by simp [spot], rfl⟩
  have found := references_find_anchors {} (anchoredFunction spot) h solid core
  have holds := Doc.holds_of_mem_nodes mem'
  refine ⟨m, h, _, doc, shown, status, referring, holds, ?_⟩
  apply (found.2.2.1 _ doc referring shown status holds).2
  have asked : NameTable.asked spot = spot := found.2.2.2.2 (by simp [spot, Url.isTrailing])
  rw [asked]
  exact ⟨_, named, documented, Doc.holds_of_mem_nodes (Node.anchorName?_eq_some.1 same ▸ mem)⟩

/-- An anchor whose name ends with parentheses is known with them and asked for without them. -/
theorem readCall_broken :
    let call : Text := "read()".toList
    Inline.parse ("@anchor ".toList ++ call) = [.anchor call] ∧
    Inline.parse ("@ref ".toList ++ call) = [.crossRef call none .pending] ∧
    ∃ m, Model.ofSources? {} (anchoredFunction call) = some m ∧
      (∃ owner doc, (owner, doc) ∈ m.documented ∧ Doc.Holds doc (.anchor call)) ∧
      ∃ owner doc shown, (owner, doc) ∈ m.documented ∧
        Doc.Holds doc (.crossRef call shown (.broken .notFound)) := by
  intro call
  have solid : call.Solid := by simp [call, Text.Solid, Text.isSpace]
  have read : (Model.ofSources? {} (anchoredFunction call)).map
      (fun m => (m.shown Node.anchorName?, m.shown Node.brokenReference?)) =
        some ([(.symbol 0, call)], [(.symbol 0, call, .notFound)]) := by
    decide +kernel
  obtain ⟨m, h, both⟩ := Option.map_eq_some_iff.1 read
  obtain ⟨anchors, references⟩ := Prod.mk.inj both
  have anchor : (.symbol 0, call) ∈ m.shown Node.anchorName? := by simp [anchors]
  have reference : (.symbol 0, call, .notFound) ∈ m.shown Node.brokenReference? := by
    simp [references]
  obtain ⟨named, documented, n, mem, same⟩ := Model.mem_shown.1 anchor
  obtain ⟨doc, referring, reference, mem', broken⟩ := Model.mem_shown.1 reference
  obtain ⟨shown, rfl⟩ : ∃ shown, reference = .crossRef call shown (.broken .notFound) := by
    unfold Node.brokenReference? at broken
    split at broken
    · cases broken
      exact ⟨_, rfl⟩
    · cases broken
  refine ⟨Inline.parse_anchor solid (by simp [call]),
    Inline.parse_reference solid ⟨'r', by simp [call], rfl⟩, m, h, ?_, ?_⟩
  · exact ⟨_, named, documented, Doc.holds_of_mem_nodes (Node.anchorName?_eq_some.1 same ▸ mem)⟩
  · exact ⟨_, doc, shown, referring, Doc.holds_of_mem_nodes mem'⟩

end DocComment
