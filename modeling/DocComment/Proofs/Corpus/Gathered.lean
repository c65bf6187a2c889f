import DocComment.Proofs.Corpus.Integrity
import DocComment.Proofs.Corpus.Scopes

/-!
# What the commands of a group come to

A group is defined once and named any number of times, in any file. Read from the events of the
corpus alone, its title is the first one given, and its documentation is that of all its commands
put together. A command that comes before the definition gives nothing to the group, and one that
extends it there is reported.
-/

set_option autoImplicit false

namespace DocComment

/-! ## Documentation put together -/

namespace Sections

variable {α : Type}

/-- Some documentation put together. A brief description that is not the first opens the detail
that comes with it. -/
def combined (docs : List (Sections α)) : Sections α where
  brief := docs.findSome? brief
  detail :=
    (docs.mapIdx fun i doc =>
      (if (docs.take i).any (·.brief.isSome) then doc.brief.toList else []) ++ doc.detail).flatten
  params := docs.flatMap params
  returns :=
    if docs.all (·.returns.isNone) then none else some (docs.flatMap fun doc => doc.returns.getD [])
  retvals := docs.flatMap retvals
  seeAlso := docs.flatMap seeAlso
  admonitions := docs.flatMap admonitions

theorem combined_brief_isSome (docs : List (Sections α)) :
    (combined docs).brief.isSome = docs.any (·.brief.isSome) := by
  simp [combined, List.isSome_findSome?]

theorem combined_detail_concat (docs : List (Sections α)) (doc : Sections α) :
    (combined (docs ++ [doc])).detail = ((combined docs).append doc).detail := by
  have earlier : (docs.mapIdx fun i d =>
        (if ((docs ++ [doc]).take i).any (·.brief.isSome) then d.brief.toList else []) ++
          d.detail) =
      docs.mapIdx fun i d =>
        (if (docs.take i).any (·.brief.isSome) then d.brief.toList else []) ++ d.detail := by
    refine List.mapIdx_eq_mapIdx_iff.mpr fun i hi => ?_
    rw [List.take_append_of_le_length hi.le]
  rw [append, combined_brief_isSome]
  simp only [combined, List.mapIdx_append, earlier, List.flatten_append, List.append_assoc]
  simp

theorem combined_returns_concat (docs : List (Sections α)) (doc : Sections α) :
    (combined (docs ++ [doc])).returns = ((combined docs).append doc).returns := by
  cases here : doc.returns with
  | none => simp [combined, append, here]
  | some body =>
    by_cases none_before : ∀ d ∈ docs, d.returns = none
    · have nothing : docs.flatMap (fun d => d.returns.getD []) = [] :=
        List.flatMap_eq_nil_iff.mpr fun d hd => by simp [none_before d hd]
      simp only [combined, append, here, nothing, List.flatMap_append, List.flatMap_singleton,
        List.nil_append, Option.getD_some]
      split <;> split <;> simp_all
    · simp [combined, append, here, none_before]

/-- Documentation is put together by appending one piece after the other. -/
theorem combined_concat (docs : List (Sections α)) (doc : Sections α) :
    combined (docs ++ [doc]) = (combined docs).append doc := by
  refine (Sections.mk.injEq ..).mpr ⟨?_, combined_detail_concat docs doc, ?_,
    combined_returns_concat docs doc, ?_, ?_, ?_⟩
  all_goals simp [combined]

theorem append_nothing (doc : Sections α) : (combined []).append doc = doc := by
  obtain ⟨brief, detail, params, returns, retvals, seeAlso, admonitions⟩ := doc
  cases returns <;> simp [combined, append]

/-- Some documentation put together, unless there is none. -/
def together? (docs : List (Sections α)) : Option (Sections α) :=
  if docs.isEmpty then none else some (combined docs)

theorem together?_concat (docs : List (Sections α)) (doc : Sections α) :
    together? (docs ++ [doc]) = some ((together? docs).elim doc (·.append doc)) := by
  have more := combined_concat docs doc
  cases docs with
  | nil => exact congrArg some (more.trans (append_nothing doc))
  | cons first rest => exact congrArg some more

end Sections

/-- The first of some titles that is not empty. -/
def firstTitle (titles : List Text) : Text := (titles.find? fun title => !title.isEmpty).getD []

theorem firstTitle_concat (titles : List Text) (title : Text) :
    firstTitle (titles ++ [title]) =
      if (firstTitle titles).isEmpty then title else firstTitle titles := by
  rw [firstTitle, firstTitle, List.find?_append]
  cases first : titles.find? fun title => !title.isEmpty with
  | none => cases title <;> simp
  | some t =>
    have given : t.isEmpty = false := by simpa using List.find?_some first
    simp [given]

/-! ## The commands of a group -/

/-- The title and the documentation that an event offers a group. -/
def Event.offer? (name : Text) : Event → Option (Text × Option Doc)
  | .group _ named title _ doc _ => if named = name then some (title, doc) else none
  | _ => none

/-- What a group is offered from its definition on. -/
def offers (name : Text) (events : List Event) : List (Text × Option Doc) :=
  (events.dropWhile fun e => e.defined? != some name).filterMap (Event.offer? name)

/-- A group that takes everything that it is offered. -/
def gathered (name : Text) (events : List Event) : GroupEntry where
  name
  title := firstTitle ((offers name events).map Prod.fst)
  doc := Sections.together? ((offers name events).filterMap Prod.snd)

theorem dropWhile_eq_nil {name : Text} {events : List Event} :
    events.dropWhile (fun e => e.defined? != some name) = [] ↔
      name ∉ events.filterMap Event.defined? := by
  simp [List.dropWhile_eq_nil_iff]

theorem gathered_undefined {name : Text} {events : List Event}
    (undefined : name ∉ events.filterMap Event.defined?) : gathered name events = { name } := by
  have nothing : offers name events = [] := by rw [offers, dropWhile_eq_nil.mpr undefined]; rfl
  rw [gathered, nothing]
  rfl

theorem offers_concat {name : Text} {events : List Event} {e : Event}
    (defined : name ∈ (events ++ [e]).filterMap Event.defined?) :
    offers name (events ++ [e]) = offers name events ++ (e.offer? name).toList := by
  have single : [e].filterMap (Event.offer? name) = (e.offer? name).toList := by
    cases h : e.offer? name <;> simp [h]
  unfold offers
  rw [List.dropWhile_append]
  split
  next unstarted =>
    have before := List.isEmpty_iff.mp unstarted
    have here : e.defined? = some name := by
      simpa [dropWhile_eq_nil.mp before] using defined
    rw [before, List.dropWhile_cons_of_neg (by simp [here]), single]
    rfl
  next => rw [List.filterMap_append, single]

theorem gathered_aside {name : Text} {events : List Event} {e : Event}
    (defined : name ∈ (events ++ [e]).filterMap Event.defined?) (none : e.offer? name = none) :
    gathered name (events ++ [e]) = gathered name events := by
  have same : offers name (events ++ [e]) = offers name events := by
    rw [offers_concat defined, none, Option.toList_none, List.append_nil]
  rw [gathered, same]
  rfl

theorem gathered_concat {name : Text} {events : List Event} {e : Event} {title : Text}
    {doc : Option Doc} (defined : name ∈ (events ++ [e]).filterMap Event.defined?)
    (offered : e.offer? name = some (title, doc)) :
    gathered name (events ++ [e]) = (gathered name events).take title doc := by
  have more : offers name (events ++ [e]) = offers name events ++ [(title, doc)] := by
    rw [offers_concat defined, offered]
    rfl
  have docs : Sections.together? ((offers name (events ++ [e])).filterMap Prod.snd) =
      ((gathered name events).document doc).doc := by
    rw [more, List.filterMap_append]
    cases doc with
    | none => exact congrArg Sections.together? (List.append_nil _)
    | some doc => exact Sections.together?_concat _ doc
  rw [gathered, docs, more, List.map_append, List.map_singleton, firstTitle_concat]
  rfl

/-! ## A run -/

/-- The names of the groups that some events define. -/
def definedIn (events : List Event) : List Text := (events.filterMap Event.defined?).eraseDups

theorem mem_definedIn {name : Text} {events : List Event} :
    name ∈ definedIn events ↔ name ∈ events.filterMap Event.defined? :=
  List.mem_eraseDups

theorem mem_definedIn_append {name : Text} {events : List Event} (more : List Event)
    (mem : name ∈ definedIn events) : name ∈ definedIn (events ++ more) := by
  rw [mem_definedIn, List.filterMap_append]
  exact List.mem_append_left _ (mem_definedIn.mp mem)

theorem definedIn_concat (events : List Event) (e : Event) :
    definedIn (events ++ [e]) =
      e.defined?.elim (definedIn events) (Outline.note (definedIn events)) := by
  rw [definedIn, List.filterMap_append]
  cases here : e.defined? with
  | none => simp [here, definedIn]
  | some name =>
    rw [List.filterMap_cons_some here, List.filterMap_nil, Outline.eraseDups_concat]
    rfl

theorem definedIn_nodup (events : List Event) : (definedIn events).Nodup := by
  induction events using List.reverseRecOn with
  | nil => exact List.nodup_nil
  | append_singleton events e ih =>
    rw [definedIn_concat]
    cases e.defined? with
    | none => exact ih
    | some name => exact nodup_note ih name

def Problem.isUnknownGroup : Problem → Bool
  | .unknownGroup _ => true
  | _ => false

theorem isOfGroups_of_unknown (p : Problem) (h : p.isUnknownGroup = true) :
    p.isOfGroups = true := by
  cases p <;> simp_all [Problem.isUnknownGroup, Problem.isOfGroups]

/-- The report on an event that extends a group before any event defines it. -/
def Event.unknown? (path : Text) (before : List Event) : Event → Option Diagnostic
  | .group .extend name _ _ _ line =>
    if (definedIn before).contains name then none
    else some ⟨.unknownGroup name, some path, some line⟩
  | _ => none

/-- The reports on the events of a file. -/
def unknowns (path : Text) : List Event → List Event → List Diagnostic
  | _, [] => []
  | before, e :: rest => (e.unknown? path before).toList ++ unknowns path (before ++ [e]) rest

/-- The reports on the events of some files, each after those that the file itself brings. -/
def unknownsFrom : List Event → List Contribution → List Diagnostic
  | _, [] => []
  | before, next :: rest =>
    next.diagnostics.filter (·.problem.isUnknownGroup) ++ unknowns next.path before next.events ++
      unknownsFrom (before ++ next.events) rest

/-- A register as some events have made it, with the reports so far. -/
structure Register.Gathers (r : Register) (events : List Event) (found : List Diagnostic) :
    Prop where
  entries : r.entries = (definedIn events).map (gathered · events)
  reports : r.reports.filter (·.problem.isUnknownGroup) = found

namespace Register.Gathers

variable {r : Register} {events : List Event} {found : List Diagnostic}

theorem names (h : r.Gathers events found) : r.names = definedIn events := by
  rw [Register.names, h.entries, List.map_map]
  exact List.map_id _

theorem nameGroup_reports (h : r.Gathers events found) (op : GroupCommand)
    (name title path : Text) (parents : List Text) (doc : Option Doc) (line : Nat) :
    (r.nameGroup op name title doc path line).reports.filter (·.problem.isUnknownGroup) =
      found ++ ((Event.group op name title parents doc line).unknown? path events).toList := by
  unfold Register.nameGroup
  rw [h.names]
  by_cases mem : name ∈ definedIn events
  · rw [idxOf?_of_mem mem]
    cases op <;> simp [Event.unknown?, mem, h.reports]
  · rw [List.idxOf?_eq_none_iff.mpr mem]
    cases op with
    | define => simp [Event.unknown?, h.reports]
    | extend =>
      simp [Event.unknown?, mem, Register.report, Problem.isUnknownGroup, ← h.reports]

theorem nameGroup_entries (h : r.Gathers events found) (op : GroupCommand)
    (name title path : Text) (parents : List Text) (doc : Option Doc) (line : Nat) :
    let e := Event.group op name title parents doc line
    (r.nameGroup op name title doc path line).entries =
      (definedIn (events ++ [e])).map (gathered · (events ++ [e])) := by
  intro e
  have aside {other : Text} (mem : other ∈ definedIn (events ++ [e])) (ne : other ≠ name) :
      gathered other (events ++ [e]) = gathered other events :=
    gathered_aside (mem_definedIn.mp mem) (if_neg (Ne.symm ne))
  have own (mem : name ∈ definedIn (events ++ [e])) :
      gathered name (events ++ [e]) = (gathered name events).take title doc :=
    gathered_concat (mem_definedIn.mp mem) (if_pos rfl)
  have defined := definedIn_concat events e
  unfold Register.nameGroup
  rw [h.names, h.entries]
  by_cases mem : name ∈ definedIn events
  · have same : definedIn (events ++ [e]) = definedIn events := by
      rw [defined]
      cases op with
      | define => exact if_pos (List.contains_iff_mem.mpr mem)
      | extend => rfl
    rw [same] at aside own ⊢
    rw [idxOf?_of_mem mem]
    refine (modify_idxOf (definedIn_nodup events) mem _ _).trans (List.map_congr_left ?_)
    intro other hother
    by_cases ne : other = name
    · rw [if_pos (by simp [ne]), ne, own mem]
    · rw [if_neg (by simp [ne]), aside hother ne]
  · rw [List.idxOf?_eq_none_iff.mpr mem]
    have others : (definedIn events).map (gathered · events) =
        (definedIn events).map (gathered · (events ++ [e])) := by
      refine List.map_congr_left fun other hother => (aside ?_ ?_).symm
      · exact mem_definedIn_append [e] hother
      · exact fun same => mem (same ▸ hother)
    cases op with
    | define =>
      have fresh : definedIn (events ++ [e]) = definedIn events ++ [name] :=
        defined.trans (if_neg (mt List.contains_iff_mem.mp mem))
      have begun : gathered name (events ++ [e]) = GroupEntry.take title doc { name } := by
        rw [own (by simp [fresh]), gathered_undefined (mt mem_definedIn.mpr mem)]
      rw [fresh, List.map_append, List.map_singleton, begun, ← others]
    | extend =>
      have same : definedIn (events ++ [e]) = definedIn events := defined
      rw [same, ← others]
      exact h.entries

/-- An event that is no group command. -/
theorem aside (h : r.Gathers events found) {r' : Register} (entries : r'.entries = r.entries)
    (reports : r'.reports.filter (·.problem.isUnknownGroup) =
      r.reports.filter (·.problem.isUnknownGroup)) {e : Event} (undefined : e.defined? = none)
    (nothing : ∀ name, e.offer? name = none) : r'.Gathers (events ++ [e]) found where
  entries := by
    have same : definedIn (events ++ [e]) = definedIn events := by
      rw [definedIn_concat, undefined]
      rfl
    rw [entries, h.entries, same]
    refine List.map_congr_left fun name mem => (gathered_aside ?_ (nothing name)).symm
    exact mem_definedIn.mp (mem_definedIn_append [e] mem)
  reports := reports.trans h.reports

end Register.Gathers

namespace Collection

namespace Progress

variable {p : Progress} {before : List Event} {found : List Diagnostic}

theorem event_gathers (h : p.collection.register.Gathers before found) (file : Nat) (path : Text)
    (e : Event) :
    (p.event file path e).collection.register.Gathers (before ++ [e])
      (found ++ (e.unknown? path before).toList) := by
  have still : p.collection.register.Gathers before (found ++ []) := by rwa [List.append_nil]
  rw [p.event_register]
  cases e with
  | group op name title parents doc line =>
    exact ⟨h.nameGroup_entries op name title path parents doc line,
      h.nameGroup_reports op name title path parents doc line⟩
  | closeScope line =>
    refine still.aside ?_ ?_ rfl fun _ => rfl
    · dsimp only
      split <;> rfl
    · dsimp only
      split
      · simp [Register.report, Problem.isUnknownGroup]
      · rfl
  | _ => exact still.aside rfl rfl rfl fun _ => rfl

theorem events_gathers (h : p.collection.register.Gathers before found) (file : Nat) (path : Text)
    (events : List Event) :
    (events.foldl (event file path) p).collection.register.Gathers (before ++ events)
      (found ++ unknowns path before events) := by
  induction events generalizing p before found with
  | nil => simpa [unknowns] using h
  | cons e rest ih => simpa [unknowns] using ih (event_gathers h file path e)

end Progress

variable {c : Collection} {before : List Event} {found : List Diagnostic}

theorem partway_gathers (h : c.register.Gathers before found) (next : Contribution)
    (events : List Event) :
    (c.partway next events).collection.register.Gathers (before ++ events)
      (found ++ next.diagnostics.filter (·.problem.isUnknownGroup) ++
        unknowns next.path before events) := by
  refine Progress.events_gathers ⟨?_, ?_⟩ c.files.length next.path events
  · rw [start_register]
    exact h.entries
  · rw [start_register, List.filter_append, h.reports, filter_isOfGroups isOfGroups_of_unknown]

theorem add_gathers (h : c.register.Gathers before found) (next : Contribution) :
    (c.add next).register.Gathers (before ++ next.events)
      (found ++ unknownsFrom before [next]) := by
  have done := partway_gathers h next next.events
  rw [List.append_assoc] at done
  rw [add_eq, leave_register, unknownsFrom, unknownsFrom, List.append_nil]
  split
  · exact done
  · refine ⟨done.entries, ?_⟩
    rw [← done.reports]
    simp [Register.report, Problem.isUnknownGroup, partway]

theorem adds_gathers (h : c.register.Gathers before found) (contributions : List Contribution) :
    (contributions.foldl add c).register.Gathers
      (before ++ contributions.flatMap Contribution.events)
      (found ++ unknownsFrom before contributions) := by
  induction contributions generalizing c before found with
  | nil => simpa [unknownsFrom] using h
  | cons next rest ih => simpa [unknownsFrom] using ih (add_gathers h next)

theorem ofContributions_gathers (contributions : List Contribution) :
    (ofContributions contributions).register.Gathers
      (contributions.flatMap Contribution.events) (unknownsFrom [] contributions) := by
  have nothing : (register {}).Gathers [] [] := ⟨rfl, rfl⟩
  exact adds_gathers nothing contributions

end Collection

theorem Collection.toModel_unknown (options : Options) (c : Collection) :
    (c.toModel options).diagnostics.filter (·.problem.isUnknownGroup) =
      c.register.reports.filter (·.problem.isUnknownGroup) := by
  have unlinked : (c.waiting.map unlinked).filter (·.problem.isUnknownGroup) = [] := by
    simp [Collection.unlinked, Problem.isUnknownGroup]
  change (c.diagnostics ++ c.waiting.map Collection.unlinked).filter _ = _
  rw [List.filter_append, unlinked, List.append_nil]
  exact (filter_isOfGroups isOfGroups_of_unknown c.diagnostics).symm

/-- Who extends a group that is not defined leaves a report and nothing else. -/
theorem Collection.Progress.extend_undefined {p : Progress} {name : Text}
    (undefined : name ∉ p.collection.register.names) (path title : Text) (parents : List Text)
    (doc : Option Doc) (line : Nat) :
    p.nameGroup path .extend name title parents doc line =
      { p with
        collection := p.collection.report (.unknownGroup name) path (some line)
        lastNamed := some none } := by
  rw [nameGroup_eq]
  unfold enterGroup
  rw [groupIndex?_register, List.idxOf?_eq_none_iff.mpr undefined]

open Collection

/-- The groups of a corpus have the titles and the documentation that their commands offer them
from their definitions on. A command that extends a group before that is reported once and changes
nothing. -/
theorem groups_gather_offers (options : Options) (contributions : List Contribution) :
    let m := Model.ofContributions options contributions
    let events := contributions.flatMap Contribution.events
    m.groups.map Group.entry = (definedGroups contributions).map (gathered · events) ∧
      m.diagnostics.filter (·.problem.isUnknownGroup) = unknownsFrom [] contributions ∧
      ∀ (next : Contribution) (met : List Event) (name title : Text) (parents : List Text)
        (doc : Option Doc) (line : Nat), name ∉ (events ++ met).filterMap Event.defined? →
        let p := (ofContributions contributions).partway next met
        p.nameGroup next.path .extend name title parents doc line =
          { p with
            collection := p.collection.report (.unknownGroup name) next.path (some line)
            lastNamed := some none } := by
  intro m events
  have done := ofContributions_gathers contributions
  refine ⟨?_, ?_, fun next met name title parents doc line undefined => ?_⟩
  · have groups : definedGroups contributions = definedIn events := by
      rw [definedIn, List.filterMap_flatMap]
      rfl
    rw [groups, ← done.entries]
    exact toModel_groups_map options (ofContributions contributions) Group.entry fun _ _ _ _ => rfl
  · exact (toModel_unknown options _).trans done.reports
  · have names := (partway_gathers done next met).names
    exact Progress.extend_undefined (by rwa [names, mem_definedIn]) next.path title parents doc line

end DocComment
