import DocComment.Proofs.Corpus.Remarks

/-!
# Comments find their subjects

Binding goes through a file once and keeps only its last declaration within reach. So a comment is
bound when it is met, to what it is about, and the events hold what all comments so far say.
-/

set_option autoImplicit false

namespace DocComment

open Remark

/-! ## Attaching -/

namespace FileDraft

/-- Directives declare nothing. -/
theorem filter_directiveEvents (fileGroups parents : List Text) (doc : Option Doc) (line : Nat)
    (named : Option Text) (directives : List Directive) :
    (directiveEvents fileGroups parents doc line named directives).filter Event.isDeclaration =
      [] := by
  induction directives generalizing named with
  | nil => rfl
  | cons d rest ih => cases d <;> cases named <;> simp [directiveEvents, Event.isDeclaration, ih]

section

variable {content : BoundDoc} {rest : List Event} {e : Event} {decl : Declaration}
  {doc : Option Doc} {groups : List Text} {line : Nat}

theorem attachTo_later {rest' : List Event} {refused : Option Text}
    (h : attachTo content rest = some (rest', refused)) :
    attachTo content (e :: rest) = some (e :: rest', refused) := by
  cases e <;> simp [attachTo, h]

theorem attachTo_other (h : attachTo content rest = none) (other : e.isDeclaration = false) :
    attachTo content (e :: rest) = none := by
  cases e <;> simp_all [attachTo, Event.isDeclaration]

theorem attachTo_here (h : attachTo content rest = none) :
    attachTo content (.declare decl doc groups line :: rest) =
      some (.declare decl (doc.or content.doc) (groups ++ content.groups) line :: rest,
        if doc.isSome && content.doc.isSome then some decl.name else none) := by
  simp [attachTo, h]

end

/-- Without a declaration nothing is attached. -/
theorem attachTo_none (content : BoundDoc) {events : List Event}
    (h : events.filter Event.isDeclaration = []) : attachTo content events = none := by
  induction events with
  | nil => rfl
  | cons e rest ih =>
    cases declares : e.isDeclaration with
    | true => simp [declares] at h
    | false =>
      rw [List.filter_cons_of_neg (by simp [declares])] at h
      exact attachTo_other (ih h) declares

/-- Among the declarations only the last one changes. -/
theorem attachTo_last (content : BoundDoc) {events before : List Event} {decl : Declaration}
    {doc : Option Doc} {groups : List Text} {line : Nat}
    (h : events.filter Event.isDeclaration = before ++ [.declare decl doc groups line]) :
    ∃ events', attachTo content events =
        some (events', if doc.isSome && content.doc.isSome then some decl.name else none) ∧
      events'.filter Event.isDeclaration =
        before ++ [.declare decl (doc.or content.doc) (groups ++ content.groups) line] := by
  induction events generalizing before with
  | nil => simp at h
  | cons e rest ih =>
    cases declares : e.isDeclaration with
    | false =>
      rw [List.filter_cons_of_neg (by simp [declares])] at h
      obtain ⟨events', attached, kept⟩ := ih h
      refine ⟨e :: events', attachTo_later attached, ?_⟩
      rw [List.filter_cons_of_neg (by simp [declares]), kept]
    | true =>
      rw [List.filter_cons_of_pos declares] at h
      cases before with
      | nil =>
        obtain ⟨rfl, nothing⟩ := List.cons.inj h
        refine ⟨_, attachTo_here (attachTo_none content nothing), ?_⟩
        rw [List.filter_cons_of_pos rfl, nothing]
        rfl
      | cons first before =>
        obtain ⟨rfl, later⟩ := List.cons.inj h
        obtain ⟨events', attached, kept⟩ := ih later
        refine ⟨e :: events', attachTo_later attached, ?_⟩
        rw [List.filter_cons_of_pos declares, kept]
        rfl

/-! ## Placing -/

/-- The events of a comment itself. -/
def placed (r : Remark) : List Event :=
  let forFile := r.content.namesFile && !r.content.namesGroup
  directiveEvents (if forFile then r.content.wantedGroups else []) r.content.wantedGroups r.doc?
    r.line none r.content.directives

/-- The draft with the events of a comment and the reports on it. -/
def announce (draft : FileDraft) (r : Remark) : FileDraft :=
  { draft with
    events := draft.events ++ placed r
    diagnostics := draft.diagnostics ++ r.found draft.path }

theorem place_group {r : Remark} (group : r.content.namesGroup = true) (draft : FileDraft) :
    draft.place r.content r.line = (draft.announce r, none) := by
  simp [place, announce, placed, found, doc?, group]

theorem place_file {r : Remark} (group : r.content.namesGroup = false)
    (file : r.content.namesFile = true) (draft : FileDraft) :
    draft.place r.content r.line =
      ((r.doc?.map fun doc => (draft.announce r).documentFile doc r.line).getD (draft.announce r),
        none) := by
  by_cases empty : r.content.doc.isEmpty = true
  · simp [place, announce, placed, found, doc?, group, file, empty]
  · simp [place, announce, placed, found, doc?, group, file, empty]

theorem place_symbol {r : Remark} (group : r.content.namesGroup = false)
    (file : r.content.namesFile = false) (draft : FileDraft) :
    draft.place r.content r.line =
      (draft.announce r, some ⟨r.doc?, r.content.wantedGroups⟩) := by
  simp [place, announce, placed, found, doc?, group, file]

/-- The draft that has met a comment, and what the comment holds for the declaration that
follows. -/
def hear (draft : FileDraft) (r : Remark) : FileDraft × BoundDoc :=
  match draft.place r.content r.line with
  | (draft, none) => (draft, ⟨none, []⟩)
  | (draft, some content) =>
    if r.leads then (draft, content) else (draft.attach content r.line, ⟨none, []⟩)

section

variable {options : Options} {raw : Text}
  (reads : ∃ d, Documentation.ofComment options (Comment.ofRaw options.tabWidth raw) = .ok d)

include reads

theorem ofComment_eq : Documentation.ofComment options (Comment.ofRaw options.tabWidth raw) =
    .ok (Documentation.ofRaw options raw) := by
  obtain ⟨d, reads⟩ := reads
  rw [Documentation.ofRaw, reads]

theorem addBefore_eq (draft : FileDraft) (i line : Nat) : draft.addBefore options raw line =
    .ok (draft.hear (Remark.ofRaw options i line true raw)) := by
  rw [addBefore, ofComment_eq reads]
  simp only [bind, Except.bind, hear, leads, Remark.ofRaw, Bool.true_and]
  rcases draft.place (Documentation.ofRaw options raw) line with ⟨draft, _ | content⟩
  · rfl
  · dsimp only
    cases (Comment.ofRaw options.tabWidth raw).trailing <;> rfl

theorem addAfter_eq (draft : FileDraft) (i line : Nat) : draft.addAfter options raw line =
    .ok (draft.hear (Remark.ofRaw options i line false raw)).1 := by
  rw [addAfter, ofComment_eq reads]
  simp only [bind, Except.bind, hear, leads, Remark.ofRaw, Bool.false_and]
  rcases draft.place (Documentation.ofRaw options raw) line with ⟨draft, _ | content⟩ <;> rfl

end

/-- The state in which a file stands after the declarations of its first fragments, `done`, and
after the comments up to there. What the comments are about is read off the whole file. -/
structure Stands (path : Text) (all done : List SourceFragment) (remarks : List Remark)
    (draft : FileDraft) : Prop where
  file : draft.path = path
  declarations : draft.events.filter Event.isDeclaration = declareEvents all remarks done
  doc : draft.doc = (heard all remarks .file).doc
  diagnostics : draft.diagnostics = reports all path [] remarks

namespace Stands

variable {path : Text} {all done rest : List SourceFragment} {remarks : List Remark}
  {draft : FileDraft} {r : Remark}

theorem filter_announce (h : Stands path all done remarks draft) :
    (draft.announce r).events.filter Event.isDeclaration = declareEvents all remarks done := by
  rw [announce, List.filter_append, placed, filter_directiveEvents, List.append_nil, h.declarations]

theorem reports_next (h : Stands path all done remarks draft) :
    reports all path [] (remarks ++ [r]) =
      (draft.announce r).diagnostics ++ r.refused all path remarks := by
  rw [reports_append, List.nil_append, ← List.append_assoc, ← h.diagnostics, ← h.file]
  rfl

/-- A comment that is about no declaration so far changes none. -/
theorem declareEvents_next (apart : ∀ i < done.length, r.subject? all ≠ some (.declaration i)) :
    declareEvents all remarks done = declareEvents all (remarks ++ [r]) done :=
  declareEvents_congr fun i bound => (heard_of_ne all remarks r _ (apart i bound)).symm

/-- A comment that adds nothing but its own events. -/
theorem announce (h : Stands path all done remarks draft)
    (apart : ∀ i < done.length, r.subject? all ≠ some (.declaration i))
    (same : (heard all (remarks ++ [r]) .file).doc = (heard all remarks .file).doc)
    (kept : r.refused all path remarks = []) :
    Stands path all done (remarks ++ [r]) (draft.announce r) where
  file := h.file
  declarations := by rw [h.filter_announce, declareEvents_next apart]
  doc := by
    rw [same]
    exact h.doc
  diagnostics := by rw [h.reports_next, kept, List.append_nil]

theorem placeGroup (h : Stands path all done remarks draft) (group : r.content.namesGroup = true) :
    Stands path all done (remarks ++ [r]) (draft.announce r) := by
  have none : r.subject? all = none := by rw [subject?, if_pos group]
  apply h.announce
  · simp [none]
  · rw [heard_of_ne all remarks r _ (by simp [none])]
  · simp [refused, none]

theorem placeFile (h : Stands path all done remarks draft) (group : r.content.namesGroup = false)
    (file : r.content.namesFile = true) :
    Stands path all done (remarks ++ [r])
      ((r.doc?.map fun doc => (draft.announce r).documentFile doc r.line).getD
        (draft.announce r)) := by
  have subject : r.subject? all = some .file := by simp [subject?, group, file]
  have apart : ∀ i < done.length, r.subject? all ≠ some (.declaration i) := by simp [subject]
  have said := heard_of_eq all remarks r _ subject
  cases doc : r.doc? with
  | none =>
    apply h.announce apart
    · simp [said, doc]
    · simp [refused, subject, doc]
  | some content =>
    have same : (draft.announce r).doc = (heard all remarks .file).doc := h.doc
    cases earlier : (heard all remarks .file).doc with
    | none =>
      have first : (draft.announce r).documentFile content r.line =
          { draft.announce r with doc := some content } := by
        rw [documentFile, same, earlier]
      have kept : r.refused all path remarks = [] := by simp [refused, subject, earlier]
      rw [Option.map_some, Option.getD_some, first]
      refine ⟨h.file, ?_, ?_, ?_⟩
      · exact h.filter_announce.trans (declareEvents_next apart)
      · simp [said, earlier, doc]
      · rw [h.reports_next, kept, List.append_nil]
    | some first =>
      have second : (draft.announce r).documentFile content r.line =
          (draft.announce r).report (.alreadyDocumented path) r.line := by
        rw [documentFile, same, earlier, ← h.file]
        rfl
      have kept : r.refused all path remarks =
          [⟨.alreadyDocumented path, some path, some r.line⟩] := by
        simp [refused, subject, earlier, doc, subjectName]
      rw [Option.map_some, Option.getD_some, second]
      refine ⟨h.file, ?_, ?_, ?_⟩
      · exact h.filter_announce.trans (declareEvents_next apart)
      · rw [said, earlier]
        exact same.trans earlier
      · rw [h.reports_next, kept, report, ← h.file]
        rfl

/-- A comment behind the declarations so far is bound to the last of them. -/
theorem attach (h : Stands path all done remarks draft) (split : all = done ++ rest)
    (group : r.content.namesGroup = false) (file : r.content.namesFile = false)
    (behind : r.leads = false) (reach : r.reach = done.length) :
    Stands path all done (remarks ++ [r])
      ((draft.announce r).attach ⟨r.doc?, r.content.wantedGroups⟩ r.line) := by
  have subject : r.subject? all = (lastDeclared? all done.length).map .declaration := by
    simp [subject?, group, file, behind, reach]
  have noFile : r.subject? all ≠ some .file := by
    rw [subject]
    cases lastDeclared? all done.length <;> simp
  have same : (heard all (remarks ++ [r]) .file).doc = (heard all remarks .file).doc := by
    rw [heard_of_ne all remarks r _ noFile]
  rcases lastDeclared?_append split with
    ⟨none, others⟩ | ⟨front, f, back, decl, rfl, here, others, last⟩
  · have nothing := h.filter_announce (r := r)
    rw [declareEvents_nil others] at nothing
    rw [FileDraft.attach, attachTo_none _ nothing]
    rw [none] at subject
    apply h.announce _ same
    · simp [refused, subject]
    · simp [subject]
  · have events := h.filter_announce (r := r)
    rw [declareEvents_append here others] at events
    obtain ⟨events', attached, kept⟩ := attachTo_last ⟨r.doc?, r.content.wantedGroups⟩ events
    rw [last, Option.map_some] at subject
    have said := heard_of_eq all remarks r _ subject
    have name : subjectName all path (.declaration front.length) = decl.name := by
      rw [split, List.append_assoc, List.cons_append, subjectName, declaration?_append, here]
      rfl
    have declared : events'.filter Event.isDeclaration =
        declareEvents all (remarks ++ [r]) (front ++ f :: back) := by
      rw [kept, declareEvents_append here others, said]
      congr 1
      apply declareEvents_next
      intro i bound same
      rw [subject] at same
      cases same
      exact Nat.lt_irrefl _ bound
    have noted : (heard all (remarks ++ [r]) .file).doc = (draft.announce r).doc :=
      same.trans h.doc.symm
    rw [FileDraft.attach, attached]
    split_ifs with double
    · have kept : r.refused all path remarks =
          [⟨.alreadyDocumented decl.name, some path, some r.line⟩] := by
        simp only [refused, subject, name, if_pos double]
      refine ⟨h.file, declared, noted.symm, ?_⟩
      rw [h.reports_next, kept, ← h.file]
      rfl
    · have kept : r.refused all path remarks = [] := by
        simp only [refused, subject, if_neg double]
      refine ⟨h.file, declared, noted.symm, ?_⟩
      rw [h.reports_next, kept, List.append_nil]

/-- A comment is bound when it is met, or held for a declaration about which nothing was said. -/
theorem hear (h : Stands path all done remarks draft) (split : all = done ++ rest)
    (reach : r.reach = done.length)
    (fresh : r.leads = true → heard all remarks (.declaration done.length) = ⟨none, []⟩) :
    Stands path all done (remarks ++ [r]) (draft.hear r).1 := by
  rw [FileDraft.hear]
  cases group : r.content.namesGroup with
  | true =>
    rw [place_group group]
    exact h.placeGroup group
  | false =>
    cases file : r.content.namesFile with
    | true =>
      rw [place_file group file]
      exact h.placeFile group file
    | false =>
      rw [place_symbol group file]
      dsimp only
      split_ifs with leads
      · have subject := subject?_leads all group file leads reach
        apply h.announce
        · intro i bound same
          rw [subject] at same
          obtain ⟨decl, -, same⟩ := Option.map_eq_some_iff.mp same
          cases same
          exact Nat.lt_irrefl _ bound
        · rw [heard_of_ne]
          rw [subject]
          cases declaration? all done.length <;> simp
        · rw [refused, subject]
          cases declaration? all done.length <;> simp [fresh leads]
      · exact h.attach split group file (by simpa using leads) reach

/-- What a comment holds for the declaration that follows is all that is said about it so far. -/
theorem hear_content (reach : r.reach = done.length)
    (fresh : heard all remarks (.declaration done.length) = ⟨none, []⟩)
    (declares : (declaration? all done.length).isSome) :
    (draft.hear r).2 = heard all (remarks ++ [r]) (.declaration done.length) := by
  have silent (other : r.subject? all ≠ some (.declaration done.length)) :
      ⟨none, []⟩ = heard all (remarks ++ [r]) (.declaration done.length) := by
    rw [heard_of_ne all remarks r _ other, fresh]
  rw [FileDraft.hear]
  cases group : r.content.namesGroup with
  | true =>
    rw [place_group group]
    exact silent (by simp [subject?, group])
  | false =>
    cases file : r.content.namesFile with
    | true =>
      rw [place_file group file]
      exact silent (by simp [subject?, group, file])
    | false =>
      rw [place_symbol group file]
      dsimp only
      split_ifs with leads
      · obtain ⟨decl, here⟩ := Option.isSome_iff_exists.mp declares
        have subject := subject?_leads all group file leads reach
        rw [here, Option.map_some] at subject
        rw [heard_of_eq all remarks r _ subject, fresh]
        simp
      · apply silent
        intro subject
        obtain ⟨-, -, -, ⟨leads', -⟩ | ⟨-, below, -⟩⟩ := subject?_eq_declaration_iff.mp subject
        · exact leads leads'
        · rw [reach] at below
          exact Nat.lt_irrefl _ below

theorem declare (h : Stands path all done remarks draft) {f : SourceFragment} {decl : Declaration}
    (here : f.declaration = some decl) :
    Stands path all (done ++ [f]) remarks
      (draft.addDeclaration decl (heard all remarks (.declaration done.length)) f.line) where
  file := h.file
  declarations := by
    rw [declareEvents_append here (by simp), addDeclaration, List.filter_append, h.declarations]
    rfl
  doc := h.doc
  diagnostics := h.diagnostics

theorem skip (h : Stands path all done remarks draft) {f : SourceFragment}
    (here : f.declaration = none) : Stands path all (done ++ [f]) remarks draft where
  file := h.file
  declarations := by
    rw [h.declarations]
    simp [declareEvents, List.zipIdx_append, here]
  doc := h.doc
  diagnostics := h.diagnostics

end Stands

/-! ## Fragments -/

section

variable {path : Text} {all done rest : List SourceFragment} {f : SourceFragment}
  {draft : FileDraft} {options : Options}

theorem Stands.before (h : Stands path all done (remarksOf options done) draft)
    (split : all = done ++ f :: rest) (readable : f.Readable options) :
    ∃ draft' content, (match f.before with
        | some raw => draft.addBefore options raw f.line
        | none => pure (draft, ⟨none, []⟩)) = .ok (draft', content) ∧
      Stands path all done (remarksOf options done ++
        (f.before.map (Remark.ofRaw options done.length f.line true)).toList) draft' ∧
      (f.declaration.isSome → content = heard all (remarksOf options done ++
        (f.before.map (Remark.ofRaw options done.length f.line true)).toList)
          (.declaration done.length)) := by
  have fresh := heard_later all (remarksOf options done) fun r => fragment_of_mem_remarksOf
  cases before : f.before with
  | none => exact ⟨draft, ⟨none, []⟩, rfl, by simpa using h, fun _ => by simp [fresh]⟩
  | some raw =>
    have reads := readable raw (by simp [before])
    refine ⟨_, _, addBefore_eq reads draft done.length f.line, h.hear split rfl fun _ => fresh, ?_⟩
    intro declares
    apply hear_content rfl fresh
    rwa [split, declaration?_append]

theorem Stands.declaration {remarks : List Remark} {content : BoundDoc}
    (h : Stands path all done remarks draft)
    (held : f.declaration.isSome → content = heard all remarks (.declaration done.length)) :
    Stands path all (done ++ [f]) remarks (match f.declaration with
      | some decl => draft.addDeclaration decl content f.line
      | none => draft) := by
  cases here : f.declaration with
  | some decl =>
    rw [held (by simp [here])]
    exact h.declare here
  | none => exact h.skip here

theorem Stands.after {remarks : List Remark} (h : Stands path all (done ++ [f]) remarks draft)
    (split : all = done ++ f :: rest) (readable : f.Readable options) :
    ∃ draft', (match f.after with
        | some raw => draft.addAfter options raw f.line
        | none => pure draft) = .ok draft' ∧
      Stands path all (done ++ [f]) (remarks ++
        (f.after.map (Remark.ofRaw options done.length f.line false)).toList) draft' := by
  cases after : f.after with
  | none => exact ⟨draft, rfl, by simpa using h⟩
  | some raw =>
    have reads := readable raw (by simp [after])
    have behind : all = done ++ [f] ++ rest := by simp [split]
    refine ⟨_, addAfter_eq reads draft done.length f.line, h.hear behind ?_ ?_⟩
    · simp [Remark.reach, Remark.ofRaw]
    · simp [Remark.leads, Remark.ofRaw]

theorem Stands.addFragment (h : Stands path all done (remarksOf options done) draft)
    (split : all = done ++ f :: rest) (readable : f.Readable options) :
    ∃ draft', draft.addFragment options f = .ok draft' ∧
      Stands path all (done ++ [f]) (remarksOf options (done ++ [f])) draft' := by
  obtain ⟨first, content, before, stands, held⟩ := h.before split readable
  obtain ⟨last, after, stands⟩ := (stands.declaration held).after split readable
  refine ⟨last, ?_, ?_⟩
  · unfold FileDraft.addFragment
    cases given : f.before with
    | some raw =>
      rw [given] at before
      dsimp only at before ⊢
      rw [before]
      exact after
    | none =>
      rw [given] at before
      cases before
      exact after
  · rwa [remarksOf_append, SourceFragment.remarks, ← List.append_assoc]

/-- The run: what every fragment keeps holds at the end of the file. -/
theorem Stands.addAll (h : Stands path all done (remarksOf options done) draft)
    (split : all = done ++ rest) (readable : ∀ f ∈ rest, f.Readable options) :
    ∃ draft', draft.addAll options rest = .ok draft' ∧
      Stands path all all (remarksOf options all) draft' := by
  -- The fragments in front grow by one in every step; what is said is about the whole file.
  induction rest generalizing done draft with
  | nil =>
    rw [List.append_nil] at split
    rw [split]
    exact ⟨draft, rfl, split ▸ h⟩
  | cons f rest ih =>
    obtain ⟨here, later⟩ := List.forall_mem_cons.mp readable
    obtain ⟨next, added, stands⟩ := h.addFragment split here
    obtain ⟨last, run, stands⟩ := ih stands (by simp [split]) later
    exact ⟨last, by rw [FileDraft.addAll, added]; exact run, stands⟩

end

end FileDraft

/-- The declaration events of a file are its declarations, in order. Each has the first
documentation among the comments about it and the groups of all of them, and every later
documentation is reported once. The file itself is documented in the same way. -/
theorem comments_bound {options : Options} {file : SourceFile}
    (readable : ∀ f ∈ file.fragments, f.Readable options) (index : Nat) :
    ∃ c, Contribution.ofSource? options index file = some c ∧
      c.events.filter Event.isDeclaration =
        declareEvents file.fragments (remarksOf options file.fragments) file.fragments ∧
      c.doc = (heard file.fragments (remarksOf options file.fragments) .file).doc ∧
      c.diagnostics = reports file.fragments file.path [] (remarksOf options file.fragments) := by
  have start : FileDraft.Stands file.path file.fragments [] (remarksOf options [])
      ⟨file.path, [], none, []⟩ := ⟨rfl, rfl, rfl, rfl⟩
  obtain ⟨draft, run, stands⟩ := start.addAll rfl readable
  refine ⟨_, by rw [Contribution.ofSource?, run], ?_, ?_, ?_⟩
  · exact stands.declarations
  · exact stands.doc
  · exact stands.diagnostics

/-- A switch that is documented twice, and one whose documentation comes late. -/
def lamp : SourceFile :=
  let switch (name : String) : Option Declaration :=
    some ⟨.function, name.toList, name.toList, none⟩
  ⟨"lamp.h".toList, [], [
    ⟨switch "on", some "/** Turns it on. */".toList, some "///< Lights up.".toList, 1⟩,
    ⟨none, some "/** @defgroup lamps Lamps */".toList, none, 3⟩,
    ⟨switch "off", some "///< @ingroup lamps".toList, none, 5⟩,
    ⟨none, none, some "///< Turns it off.".toList, 7⟩]⟩

/-- The name, the brief description, the groups and the line of a declaration event. -/
def Event.bound? : Event → Option (Text × Option Text × List Text × Nat)
  | .declare decl doc groups line => some (decl.name, doc.map Doc.summary, groups, line)
  | _ => none

theorem lamp_bound : (∀ f ∈ lamp.fragments, f.Readable {}) ∧
    ∃ c, Contribution.ofSource? {} 0 lamp = some c ∧
      (c.events.filter Event.isDeclaration).filterMap Event.bound? =
        [("on".toList, some "Turns it on.".toList, ["lamps".toList], 1),
          ("off".toList, some "Turns it off.".toList, [], 5)] ∧
      c.diagnostics = [⟨.alreadyDocumented "on".toList, some "lamp.h".toList, some 1⟩] := by
  have readable : ∀ f ∈ lamp.fragments, f.Readable {} := by decide +kernel
  obtain ⟨c, bound, declared, -, reported⟩ := comments_bound readable 0
  refine ⟨readable, c, bound, ?_, ?_⟩
  · rw [declared]
    decide +kernel
  · rw [reported]
    decide +kernel

end DocComment
