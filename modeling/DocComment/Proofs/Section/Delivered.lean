import DocComment.Proofs.Section.Sentence
import DocComment.Proofs.Section.Turning
import Mathlib.Data.Multiset.AddSub

/-!
# Blocks reach their sections

A reader hands over the blocks that it has read when another section begins, when a blank line
leads out of a section, and at the end. Everything that is handed over is in the documentation,
once for each element that its section names, and nothing else is. Only a parameter command
without a name opens a section that names no element.
-/

set_option autoImplicit false

namespace DocComment

/-- How many elements take up what a section is given. -/
def Section.share : Section → Nat
  | params _ count => count
  | _ => 1

/-- What there is of a handover when it has reached its section. -/
def Handover.received (h : Handover) : List Node := (List.replicate h.dest.share h.nodes).flatten

theorem Handover.received_of_one {h : Handover} (one : h.dest.share = 1) :
    h.received = h.nodes := by
  rw [received, one, List.replicate_one, List.flatten_singleton]

/-! ## What a section is given -/

namespace Section

theorem addParams_zero (first : Nat) (nodes : List Node) (params : List (ParamEntry Node)) :
    addParams first 0 nodes params = params := by
  refine List.ext_getElem (by simp [addParams]) fun i _ _ => ?_
  simp only [addParams, List.getElem_mapIdx]
  exact if_neg (by omega)

theorem addParams_behind (first count : Nat) (nodes : List Node) (p : ParamEntry Node)
    (rest : List (ParamEntry Node)) :
    addParams (first + 1) count nodes (p :: rest) = p :: addParams first count nodes rest := by
  refine List.ext_getElem (by simp [addParams]) fun i _ _ => ?_
  cases i with
  | zero => simp [addParams]
  | succ i =>
    have same : (first + 1 ≤ i + 1 ∧ i + 1 < first + 1 + count) ↔
        (first ≤ i ∧ i < first + count) := by omega
    simp only [addParams, List.getElem_mapIdx, List.getElem_cons_succ, same]

theorem addParams_front (count : Nat) (nodes : List Node) (p : ParamEntry Node)
    (rest : List (ParamEntry Node)) :
    addParams 0 (count + 1) nodes (p :: rest) =
      { p with body := p.body ++ nodes } :: addParams 0 count nodes rest := by
  refine List.ext_getElem (by simp [addParams]) fun i _ _ => ?_
  cases i with
  | zero => simp [addParams]
  | succ i => simp [addParams]

theorem bodies_addParams {first count : Nat} {params : List (ParamEntry Node)}
    (within : first + count ≤ params.length) (nodes : List Node) :
    ((addParams first count nodes params).flatMap ParamEntry.body).Perm
      (params.flatMap ParamEntry.body ++ (List.replicate count nodes).flatten) := by
  induction params generalizing first count with
  | nil =>
    obtain rfl : count = 0 := by simp at within; omega
    simp [addParams]
  | cons p rest ih =>
    rw [List.length_cons] at within
    cases first with
    | succ first =>
      rw [addParams_behind, List.flatMap_cons, List.flatMap_cons, List.append_assoc]
      exact (ih (by omega)).append_left p.body
    | zero =>
      cases count with
      | zero => simp [addParams_zero]
      | succ count =>
        have later : ((addParams 0 count nodes rest).flatMap ParamEntry.body).Perm _ :=
          ih (by omega)
        rw [← Multiset.coe_eq_coe] at later ⊢
        simp only [addParams_front, List.flatMap_cons, List.replicate_succ, List.flatten_cons,
          ← Multiset.coe_add] at later ⊢
        rw [later]
        abel

/-- One element of a list gets more in its body. -/
theorem bodies_modify {α : Type} {body : α → List Node} {give : α → α} {nodes : List Node}
    (gives : ∀ a, body (give a) = body a ++ nodes) {elements : List α} {i : Nat}
    (h : i < elements.length) :
    ((elements.modify i give).flatMap body).Perm (elements.flatMap body ++ nodes) := by
  have split : elements = elements.take i ++ elements[i] :: elements.drop (i + 1) := by simp
  rw [List.modify_eq_take_cons_drop h]
  conv_rhs => rw [split]
  rw [← Multiset.coe_eq_coe]
  simp only [List.flatMap_append, List.flatMap_cons, gives, ← Multiset.coe_add]
  abel

/-- A section that is there takes up all that it is given. -/
theorem contents_add {dest : Section} {doc : Doc} (within : dest.Within doc) (nodes : List Node) :
    (dest.add nodes doc).contents.Perm (doc.contents ++ (Handover.mk dest nodes).received) := by
  by_cases empty : nodes = []
  · simp [empty, add, Handover.received]
  have given : nodes.isEmpty = false := by simpa using empty
  -- Where in the documentation the blocks stand does not matter, so that these are sums.
  rw [← Multiset.coe_eq_coe]
  simp only [add, given, Bool.false_eq_true, if_false, Sections.contents, ← Multiset.coe_add]
  cases dest with
  | params first count =>
    have reached := Multiset.coe_eq_coe.2 (bodies_addParams within nodes)
    simp only [reached, Handover.received, share, ← Multiset.coe_add]
    abel
  | retval index =>
    have reached : ((doc.retvals.modify index fun r => { r with body := r.body ++ nodes }).flatMap
        RetvalEntry.body).Perm _ := bodies_modify (fun _ => rfl) within
    rw [Multiset.coe_eq_coe.2 reached, Handover.received_of_one rfl, ← Multiset.coe_add]
    abel
  | admonition index =>
    have reached : ((doc.admonitions.modify index fun a =>
        { a with body := a.body ++ nodes }).flatMap Admonition.body).Perm _ :=
      bodies_modify (fun _ => rfl) within
    rw [Multiset.coe_eq_coe.2 reached, Handover.received_of_one rfl, ← Multiset.coe_add]
    abel
  | brief =>
    obtain ⟨node, rest, rfl⟩ := List.exists_cons_of_ne_nil empty
    have split : ((node :: rest : List Node) : Multiset Node) = ↑[node] + ↑rest := rfl
    rw [Handover.received_of_one rfl]
    cases h : doc.brief with
    | none =>
      simp only [addBrief, h, split, Option.toList, Multiset.coe_nil, ← Multiset.coe_add]
      abel
    | some b =>
      simp only [addBrief, h, Option.toList, ← Multiset.coe_add]
      abel
  | returns =>
    rw [Handover.received_of_one rfl]
    simp only [Sections.addReturns, Option.getD_some, ← Multiset.coe_add]
    abel
  | detail =>
    rw [Handover.received_of_one rfl, ← Multiset.coe_add]
    abel
  | seeAlso =>
    rw [Handover.received_of_one rfl, ← Multiset.coe_add]
    abel

/-- What a section is given takes no section away. -/
theorem Within.add {other : Section} {doc : Doc} (within : other.Within doc) (dest : Section)
    (nodes : List Node) : other.Within (dest.add nodes doc) := by
  obtain ⟨params, retvals, admonitions⟩ := lengths_add dest nodes doc
  cases other with
  | params first count => exact within.trans_eq params.symm
  | retval index => exact within.trans_eq retvals.symm
  | admonition index => exact within.trans_eq admonitions.symm
  | _ => trivial

theorem Within.join {dest : Section} {doc : Doc} (within : dest.Within doc) (new : NewElements) :
    dest.Within (new.join doc) := by
  cases dest <;> simp [Within, NewElements.join, Doc.grow] at within ⊢ <;> omega

theorem Within.addReturns {dest : Section} {doc : Doc} (within : dest.Within doc)
    (nodes : List Node) : dest.Within (doc.addReturns nodes) := by
  cases dest <;> exact within

end Section

theorem Doc.contents_addReturns_nil (doc : Doc) : (doc.addReturns []).contents = doc.contents := by
  simp [Sections.contents, Sections.addReturns]

/-! ## What is handed over -/

namespace SectionReader

section

variable (options : Options) (inner : BlockParser)

/-- All that is handed over while tokens are read and at the end. -/
def handovers : List Token → SectionReader → Option (List Handover)
  | [], s => (s.pending inner).map ([·])
  | t :: rest, s => do
    let now ← s.handover? options inner t
    let s ← s.next options inner t
    let later ← handovers rest s
    return now ++ later

end

variable {options : Options} {inner : BlockParser} {s s' : SectionReader}

/-- Whether a reader has come to hold what was handed over and nothing else, in a section that
is there. -/
structure Receives (handed : List Handover) (s s' : SectionReader) : Prop where
  contents : s'.doc.contents.Perm (s.doc.contents ++ handed.flatMap Handover.received)
  within : s'.current.Within s'.doc

theorem Receives.trans {a b : List Handover} {s'' : SectionReader} (ha : Receives a s s')
    (hb : Receives b s' s'') : Receives (a ++ b) s s'' where
  contents := by
    rw [List.flatMap_append, ← List.append_assoc]
    exact hb.contents.trans (ha.contents.append_right _)
  within := hb.within

/-- Whether everything that has been read is handed over from one state to the next. -/
def HandsOver (inner : BlockParser) (s s' : SectionReader) : Prop :=
  ∃ h, s.pending inner = some h ∧ Receives [h] s s'

/-- Elements without a body and a return section without text change nothing of what is there. -/
theorem TurnsTo.handsOver {new : NewElements} {dest : Section}
    (turned : TurnsTo inner new dest s s') (within : s.current.Within s.doc) :
    HandsOver inner s s' := by
  obtain ⟨blocks, there, complete, doc⟩ := turned.given
  have given := Section.contents_add (within.join new) blocks.nodes
  have reached := there.add s.current blocks.nodes
  rw [new.contents_join] at given
  refine ⟨⟨s.current, blocks.nodes⟩, by rw [pending, complete]; rfl, ?_, ?_⟩
  · rw [List.flatMap_singleton]
    rcases doc with doc | doc
    · rwa [doc]
    · rwa [doc, Doc.contents_addReturns_nil]
  · rw [turned.current]
    rcases doc with doc | doc
    · rwa [doc]
    · rw [doc]
      exact reached.addReturns []

theorem Receives.nothing (stays : Stays s s') (within : s.current.Within s.doc) :
    Receives [] s s' where
  contents := by simp [stays.doc]
  within := by rwa [stays.doc, stays.current]

/-- One token. -/
theorem next_receives {token : Token} (within : s.current.Within s.doc)
    (step : s.next options inner token = some s') :
    ∃ handed, s.handover? options inner token = some handed ∧ Receives handed s s' := by
  rcases next_cases step with ⟨stays, nothing, -⟩ | ⟨new, dest, r, turned, doc, current, handed, -⟩
  · exact ⟨[], nothing, .nothing stays within⟩
  · obtain ⟨h, given, contents, there⟩ := turned.handsOver (by rwa [doc, current])
    rw [doc] at contents
    exact ⟨[h], by rw [handed, given, Option.map_some], contents, there⟩

/-- All tokens and the end. -/
theorem handovers_received (tokens : List Token) {s₁ : SectionReader}
    (within : s.current.Within s.doc)
    (run : tokens.foldlM (fun s t => s.next options inner t) s = some s₁)
    (last : s₁.turnTo inner s₁.current = some s') :
    ∃ handed, handovers options inner tokens s = some handed ∧ Receives handed s s' := by
  induction tokens generalizing s with
  | nil =>
    obtain rfl := Option.some.inj run
    obtain ⟨h, handed, receives⟩ := (turnTo_turns last within).handsOver within
    exact ⟨[h], by rw [handovers, handed, Option.map_some], receives⟩
  | cons t rest ih =>
    obtain ⟨s₂, step, run⟩ := Option.bind_eq_some_iff.1 run
    obtain ⟨now, given, receives⟩ := next_receives within step
    obtain ⟨later, rest, all⟩ := ih receives.within run
    have step : s.next options inner t = some s₂ := step
    exact ⟨now ++ later, by simp [handovers, given, step, rest], receives.trans all⟩

end SectionReader

/-! ## The brief description -/

/-- Inline nodes that are cut in two, if at all, inside one of their texts. Only spaces are lost
at the cut. -/
inductive CutInto : List Node → List Node → List Node → Prop where
  | whole (body : List Node) : CutInto body body []
  | inside (before : List Node) (head gap tail : Text) (after : List Node)
      (spaces : ∀ c ∈ gap, Text.isSpace c) :
      CutInto (before ++ .text (head ++ gap ++ tail) :: after) (before ++ [.text head])
        ((if tail.isEmpty then [] else [.text tail]) ++ after)

namespace Section

theorem SentenceCut.cutInto {body first later : List Node} (cut : SentenceCut body first later) :
    CutInto body first later := by
  obtain @⟨before, front, after, rest, -, -⟩ := cut
  have parts : (' ' :: after.takeWhile Text.isSpace) ++ Text.trimStart after = ' ' :: after :=
    congrArg (' ' :: ·) (List.takeWhile_append_dropWhile (p := Text.isSpace) (l := after))
  have whole : front ++ sentenceEnd ++ after =
      front ++ ['.'] ++ (' ' :: after.takeWhile Text.isSpace) ++ Text.trimStart after := by
    rw [List.append_assoc, List.append_assoc, List.append_assoc, parts]
    rfl
  rw [whole]
  refine .inside before _ _ _ rest fun c mem => ?_
  rcases List.mem_cons.1 mem with rfl | space
  · rfl
  · exact List.mem_takeWhile_imp space

theorem cutSentence_cuts (body : List Node) :
    CutInto body (cutSentence body).1 (cutSentence body).2 := by
  rcases cutSentence_spec body with cut | ⟨-, whole⟩
  · exact cut.cutInto
  · rw [whole]
    exact .whole body

end Section

namespace Doc

/-- Whether documentation is as it was, or has its first paragraph, whole or in part, as its
brief description. -/
def BriefTaken (doc doc' : Doc) : Prop :=
  doc' = doc ∨ ∃ body rest first later, doc.brief = none ∧ doc.detail = .paragraph body :: rest ∧
    CutInto body first later ∧
    doc' = { doc with
      brief := some (.paragraph first)
      detail := (if later.isEmpty then [] else [.paragraph later]) ++ rest }

/-- Whether documentation has a block, whole or as its brief description and the paragraph after
it. -/
def Shows (doc : Doc) (n : Node) : Prop :=
  n ∈ doc.contents ∨ ∃ body first later, n = .paragraph body ∧ CutInto body first later ∧
    doc.brief = some (.paragraph first) ∧ (later = [] ∨ .paragraph later ∈ doc.detail)

theorem BriefTaken.shows {doc doc' : Doc} (taken : doc.BriefTaken doc') {n : Node}
    (here : n ∈ doc.contents) : doc'.Shows n := by
  obtain rfl | ⟨body, rest, first, later, brief, detail, cut, rfl⟩ := taken
  · exact .inl here
  by_cases opening : n = .paragraph body
  · refine .inr ⟨body, first, later, opening, cut, rfl, ?_⟩
    by_cases none : later = []
    · exact .inl none
    · exact .inr (by simp [none])
  · refine .inl ?_
    simp only [Sections.contents, brief, detail, Option.toList, List.mem_append, List.mem_cons,
      opening] at here ⊢
    tauto

end Doc

theorem Section.takeBrief_taken (rule : BriefRule) {doc : Doc} (absent : doc.brief = none) :
    doc.BriefTaken { doc with
      brief := (takeBrief rule doc.detail).1, detail := (takeBrief rule doc.detail).2 } := by
  unfold takeBrief
  split
  · next body rest detail =>
    cases rule with
    | firstParagraph => exact .inr ⟨body, rest, body, [], absent, detail, .whole body, rfl⟩
    | firstSentence =>
      exact .inr ⟨body, rest, _, _, absent, detail, cutSentence_cuts body, rfl⟩
  · exact .inl (by rw [← absent])

namespace SectionReader

/-- At the end the last section is closed and the brief description is found. -/
theorem complete_takes {options : Options} {inner : BlockParser} {s s' : SectionReader}
    (completed : s.complete options inner = some s') :
    ∃ s₁, s.turnTo inner s.current = some s₁ ∧ s₁.doc.BriefTaken s'.doc := by
  obtain ⟨s₁, last, completed⟩ := Option.bind_eq_some_iff.1 completed
  refine ⟨s₁, last, ?_⟩
  dsimp only at completed
  split at completed
  · obtain rfl := Option.some.inj completed
    exact .inl rfl
  next unmarked =>
  obtain rfl := Option.some.inj completed
  have absent : s₁.doc.brief = none := by simp at unmarked; exact unmarked.1
  dsimp only
  exact Section.takeBrief_taken options.brief absent

end SectionReader

/-- The blocks that are handed over while a comment is read are all there is in its
documentation, once for each element of their section, except that the first paragraph may have
been cut for the brief description. -/
theorem Documentation.accounted {options : Options} {lines : List Text} {d : Documentation}
    (read : Documentation.ofLines options lines = .ok d) :
    ∃ tokens handed doc, tokenize lines = .ok tokens ∧
      SectionReader.handovers options (Blocks.parse options) tokens .start = some handed ∧
      doc.contents.Perm (handed.flatMap Handover.received) ∧ Doc.BriefTaken doc d.doc := by
  unfold ofLines at read
  split at read
  · exact absurd read (by simp)
  next tokens accepted =>
  split at read
  · next s whole =>
    obtain rfl := Except.ok.inj read
    obtain ⟨s₁, run, completed⟩ := Option.bind_eq_some_iff.1 whole
    obtain ⟨s₂, last, taken⟩ := SectionReader.complete_takes completed
    obtain ⟨handed, given, contents, -⟩ :=
      SectionReader.handovers_received tokens (s := .start) trivial run last
    exact ⟨tokens, handed, s₂.doc, accepted, given, contents, taken⟩
  · exact absurd read (by simp)

theorem Handover.mem_received {h : Handover} (names : h.dest.share ≠ 0) {n : Node}
    (mem : n ∈ h.nodes) : n ∈ h.received :=
  List.mem_flatten.2 ⟨h.nodes, List.mem_replicate.2 ⟨names, rfl⟩, mem⟩

/-- Every block that is handed over to a section that names some element is in the
documentation, whole or cut in two for the brief description, and nothing else is. -/
theorem handed_blocks_shown {options : Options} {lines : List Text} {d : Documentation}
    (read : Documentation.ofLines options lines = .ok d) :
    ∃ tokens handed, tokenize lines = .ok tokens ∧
      SectionReader.handovers options (Blocks.parse options) tokens .start = some handed ∧
      (∀ h ∈ handed, h.dest.share ≠ 0 → ∀ n ∈ h.nodes, d.doc.Shows n) ∧
      ∃ doc : Doc, doc.contents.Perm (handed.flatMap Handover.received) ∧ doc.BriefTaken d.doc := by
  obtain ⟨tokens, handed, doc, accepted, given, contents, taken⟩ := Documentation.accounted read
  refine ⟨tokens, handed, accepted, given, fun h mem names n inside => taken.shows ?_,
    doc, contents, taken⟩
  exact contents.mem_iff.2 (List.mem_flatMap.2 ⟨h, mem, h.mem_received names inside⟩)

/-- The sections that blocks are handed over to while some lines are read, and how many. -/
def handedOver (lines : List Text) : Option (List (Section × Nat)) :=
  (SectionReader.handovers {} (Blocks.parse {}) (Token.ofLines 0 none lines) .start).map
    fun handed => handed.map fun h => (h.dest, h.nodes.length)

theorem exists_handover {lines : List Text} {handed : List Handover}
    {places : List (Section × Nat)}
    (given : SectionReader.handovers {} (Blocks.parse {}) (Token.ofLines 0 none lines) .start =
      some handed) (shown : handedOver lines = some places) {dest : Section} {count : Nat}
    (mem : (dest, count) ∈ places) :
    ∃ h ∈ handed, h.dest = dest ∧ h.nodes.length = count := by
  rw [handedOver, given] at shown
  obtain rfl := Option.some.inj shown
  obtain ⟨h, mem, place⟩ := List.mem_map.1 mem
  exact ⟨h, mem, Prod.mk.inj place⟩

def sharedParameter : List Text :=
  ["First part. The rest".toList, [], "@param a, b both".toList, "@retval 0".toList]

theorem sharedParameter_shown :
    ∃ d tokens handed h, Documentation.ofLines {} sharedParameter = .ok d ∧
      tokenize sharedParameter = .ok tokens ∧
      SectionReader.handovers {} (Blocks.parse {}) tokens .start = some handed ∧
      h ∈ handed ∧ h.dest = .params 0 2 ∧ h.nodes ≠ [] ∧ ∀ n ∈ h.nodes, d.doc.Shows n := by
  have accepted : tokenize sharedParameter = .ok (Token.ofLines 0 none sharedParameter) := by
    decide +kernel
  have returns : (Documentation.ofLines {} sharedParameter).toOption.isSome = true := by
    decide +kernel
  have places : handedOver sharedParameter =
      some [(.detail, 1), (.params 0 2, 1), (.retval 0, 0)] := by
    decide +kernel
  cases read : Documentation.ofLines {} sharedParameter with
  | error e => simp [read, Except.toOption] at returns
  | ok d =>
    obtain ⟨tokens, handed, same, given, shown, -⟩ := handed_blocks_shown read
    obtain rfl := Except.ok.inj (accepted.symm.trans same)
    obtain ⟨h, mem, dest, one⟩ := exists_handover given places (.tail _ (.head _))
    refine ⟨d, _, handed, h, rfl, same, given, mem, dest, ?_, shown h mem ?_⟩
    · exact List.ne_nil_of_length_pos (by omega)
    · simp [dest, Section.share]

theorem Doc.not_shows_of_isEmpty {doc : Doc} (empty : doc.isEmpty = true) (n : Node) :
    ¬ doc.Shows n := by
  simp only [Sections.isEmpty, Bool.and_eq_true, Option.isNone_iff_eq_none, List.isEmpty_iff]
    at empty
  obtain ⟨⟨⟨⟨⟨⟨brief, detail⟩, params⟩, returns⟩, retvals⟩, seeAlso⟩, admonitions⟩ := empty
  rintro (mem | ⟨body, first, later, -, -, some, -⟩)
  · simp [Sections.contents, brief, detail, params, returns, retvals, seeAlso, admonitions] at mem
  · exact absurd (brief.symm.trans some) (by simp)

def namelessParameter : List Text := ["@param".toList, "lost text".toList]

/-- The text under a parameter command without a name is handed over to no element. -/
theorem namelessParameter_lost :
    ∃ d tokens handed h n, Documentation.ofLines {} namelessParameter = .ok d ∧
      tokenize namelessParameter = .ok tokens ∧
      SectionReader.handovers {} (Blocks.parse {}) tokens .start = some handed ∧
      h ∈ handed ∧ n ∈ h.nodes ∧ ¬ d.doc.Shows n := by
  have accepted : tokenize namelessParameter = .ok (Token.ofLines 0 none namelessParameter) := by
    decide +kernel
  have empty : (Documentation.ofLines {} namelessParameter).toOption.map (·.doc.isEmpty) =
      some true := by
    decide +kernel
  have places : handedOver namelessParameter = some [(.detail, 0), (.params 0 0, 1)] := by
    decide +kernel
  cases read : Documentation.ofLines {} namelessParameter with
  | error e => simp [read, Except.toOption] at empty
  | ok d =>
    obtain ⟨tokens, handed, -, same, given, -⟩ := Documentation.accounted read
    obtain rfl := Except.ok.inj (accepted.symm.trans same)
    obtain ⟨h, mem, -, one⟩ := exists_handover given places (.tail _ (.head _))
    obtain ⟨n, nodes⟩ := List.length_eq_one_iff.1 one
    have empty : d.doc.isEmpty = true := by simpa [read, Except.toOption] using empty
    exact ⟨d, _, handed, h, n, rfl, same, given, mem, by simp [nodes],
      Doc.not_shows_of_isEmpty empty n⟩

end DocComment
