import DocComment.Proofs.Corpus.GroupForest
import DocComment.Proofs.Corpus.Reports

/-!
# The order in which links are made

A link is made where it is asked for if its group is defined by then, and otherwise where the group
is. So the order in which the links of a corpus are made is not that in which they are asked for,
but the outline knows it: each event makes the links that have waited for what it defines, and then
its own.
-/

set_option autoImplicit false

namespace DocComment

open GroupForest

namespace Outline

/-- An event, where it is met and what has been named before it. -/
structure Step where
  file : Nat
  path : Text
  before : Outline
  event : Event

namespace Step

variable (s : Step)

def after : Outline := s.before.next s.event

/-- What is asked for at a step. -/
def requests : List WaitingLink := s.before.requests s.file s.path s.event

/-- The links that are made at a step: those among `met` that have waited for the group that it
defines, and then those that it asks for, unless they have to wait. -/
def served (met : List WaitingLink) : List WaitingLink :=
  (met.filter fun w => !s.before.groups.contains w.group && s.after.groups.contains w.group) ++
    s.requests.filter fun w => s.after.groups.contains w.group

end Step

/-- The steps of a file. -/
def steps (file : Nat) (path : Text) : Outline → List Event → List Step
  | _, [] => []
  | o, e :: rest => ⟨file, path, o, e⟩ :: steps file path (o.next e) rest

/-- The steps of some files, the first of which has the number `file`. -/
def stepsFrom : Nat → Outline → List Contribution → List Step
  | _, _, [] => []
  | file, o, c :: rest =>
    o.enterFile.steps file c.path c.events ++ stepsFrom (file + 1) (o.afterFile c) rest

/-- The links that are made at some steps, in order, after `met` was asked for. -/
def served : List WaitingLink → List Step → List WaitingLink
  | _, [] => []
  | met, s :: rest => s.served met ++ served (met ++ s.requests) rest

theorem served_append (met : List WaitingLink) (a b : List Step) :
    served met (a ++ b) = served met a ++ served (met ++ a.flatMap Step.requests) b := by
  induction a generalizing met with
  | nil => simp [served]
  | cons s rest ih => simp [served, ih]

theorem served_subset (met : List WaitingLink) (steps : List Step) :
    served met steps ⊆ met ++ steps.flatMap Step.requests := by
  induction steps generalizing met with
  | nil => simp [served]
  | cons s rest ih =>
    have later := ih (met ++ s.requests)
    intro w mem
    rw [served, Step.served] at mem
    simp only [List.flatMap_cons, List.mem_append, List.mem_filter] at mem later ⊢
    obtain (waited | own) | after := mem
    · exact .inl waited.1
    · exact .inr (.inl own.1)
    · simpa [or_assoc] using later after

/-- A link is made where its group is there. -/
theorem defined_of_mem_served {met : List WaitingLink} {steps : List Step} {w : WaitingLink}
    (mem : w ∈ served met steps) : ∃ s ∈ steps, w.group ∈ s.after.groups := by
  induction steps generalizing met with
  | nil => cases mem
  | cons s rest ih =>
    obtain here | later := List.mem_append.mp mem
    · refine ⟨s, List.mem_cons_self, ?_⟩
      obtain waited | own := List.mem_append.mp here
      · obtain ⟨-, there⟩ : w.group ∉ s.before.groups ∧ w.group ∈ s.after.groups := by
          simpa using (List.mem_filter.mp waited).2
        exact there
      · simpa using (List.mem_filter.mp own).2
    · obtain ⟨t, mem, known⟩ := ih later
      exact ⟨t, List.mem_cons_of_mem s mem, known⟩

theorem flatMap_steps (file : Nat) (path : Text) (o : Outline) (events : List Event) :
    (o.steps file path events).flatMap Step.requests = o.requestsAll file path events := by
  induction events generalizing o with
  | nil => rfl
  | cons e rest ih => rw [steps, List.flatMap_cons, ih, requestsAll, Step.requests]

theorem flatMap_stepsFrom (file : Nat) (o : Outline) (contributions : List Contribution) :
    (stepsFrom file o contributions).flatMap Step.requests =
      requestsFrom file o contributions := by
  induction contributions generalizing file o with
  | nil => rfl
  | cons c rest ih => rw [stepsFrom, List.flatMap_append, flatMap_steps, ih, requestsFrom]

/-! ## Where a group stands -/

theorem initial_note {α : Type} [BEq α] (l : List α) (a : α) : l <+: note l a := by
  unfold note
  split
  · exact List.prefix_rfl
  · exact List.prefix_append l [a]

theorem groups_next (o : Outline) (e : Event) : o.groups <+: (o.next e).groups := by
  unfold next
  cases e.defined? with
  | none => exact List.prefix_rfl
  | some name => exact initial_note o.groups name

theorem groups_foldl_next (events : List Event) (o : Outline) :
    o.groups <+: (events.foldl next o).groups := by
  induction events generalizing o with
  | nil => exact List.prefix_rfl
  | cons e rest ih => exact (o.groups_next e).trans (ih (o.next e))

theorem groups_foldl_afterFile (contributions : List Contribution) (o : Outline) :
    o.groups <+: (contributions.foldl afterFile o).groups := by
  induction contributions generalizing o with
  | nil => exact List.prefix_rfl
  | cons c rest ih => exact (groups_foldl_next c.events o.enterFile).trans (ih (o.afterFile c))

theorem after_initial_steps {file : Nat} {path : Text} {o : Outline} {events : List Event} {s : Step}
    (mem : s ∈ o.steps file path events) : s.after.groups <+: (events.foldl next o).groups := by
  induction events generalizing o with
  | nil => cases mem
  | cons e rest ih =>
    obtain rfl | later := List.mem_cons.mp mem
    · exact groups_foldl_next rest (o.next e)
    · exact ih later

theorem after_initial_stepsFrom {file : Nat} {o : Outline} {contributions : List Contribution}
    {s : Step} (mem : s ∈ stepsFrom file o contributions) :
    s.after.groups <+: (contributions.foldl afterFile o).groups := by
  induction contributions generalizing file o with
  | nil => cases mem
  | cons c rest ih =>
    obtain here | later := List.mem_append.mp mem
    · exact (after_initial_steps here).trans (groups_foldl_afterFile rest (o.afterFile c))
    · exact ih later

theorem before_initial_steps {file : Nat} {path : Text} {o : Outline} {events : List Event}
    {s : Step} (mem : s ∈ o.steps file path events) : o.groups <+: s.before.groups := by
  induction events generalizing o with
  | nil => cases mem
  | cons e rest ih =>
    obtain rfl | later := List.mem_cons.mp mem
    · exact List.prefix_rfl
    · exact (o.groups_next e).trans (ih later)

theorem before_initial_stepsFrom {file : Nat} {o : Outline} {contributions : List Contribution}
    {s : Step} (mem : s ∈ stepsFrom file o contributions) : o.groups <+: s.before.groups := by
  induction contributions generalizing file o with
  | nil => cases mem
  | cons c rest ih =>
    obtain here | later := List.mem_append.mp mem
    · have front : o.enterFile.groups <+: s.before.groups := before_initial_steps here
      exact front
    · exact (groups_foldl_next c.events o.enterFile).trans (ih later)

/-- An event defines one group at most. -/
theorem eq_of_new {o : Outline} {e : Event} {a b : Text} (ha : a ∉ o.groups)
    (ha' : a ∈ (o.next e).groups) (hb : b ∉ o.groups) (hb' : b ∈ (o.next e).groups) : a = b := by
  unfold next at ha' hb'
  cases defined : e.defined? with
  | none =>
    rw [defined] at ha'
    exact absurd ha' ha
  | some name =>
    rw [defined] at ha' hb'
    have newA := (Collection.mem_note.mp ha').resolve_left ha
    exact newA.trans ((Collection.mem_note.mp hb').resolve_left hb).symm

/-- The step at which a group is defined: it is there from then on, and not before. -/
structure Step.Defines (name : Text) (earlier : List Step) (s : Step) (later : List Step) :
    Prop where
  earlier : ∀ t ∈ earlier, name ∉ t.after.groups
  before : name ∉ s.before.groups
  after : name ∈ s.after.groups
  later : ∀ t ∈ later, name ∈ t.after.groups

theorem exists_defines_steps (file : Nat) (path : Text) {o : Outline} {events : List Event}
    {name : Text} (new : name ∉ o.groups) (defined : name ∈ (events.foldl next o).groups) :
    ∃ earlier s later, o.steps file path events = earlier ++ s :: later ∧
      s.Defines name earlier later := by
  induction events generalizing o with
  | nil => exact absurd defined new
  | cons e rest ih =>
    by_cases here : name ∈ (o.next e).groups
    · refine ⟨[], ⟨file, path, o, e⟩, _, rfl, by simp, new, here, fun t mem => ?_⟩
      exact (t.before.groups_next t.event).subset ((before_initial_steps mem).subset here)
    · obtain ⟨earlier, s, later, steps, defines⟩ := ih here defined
      refine ⟨⟨file, path, o, e⟩ :: earlier, s, later, by rw [Outline.steps, steps]; rfl, ?_⟩
      exact { defines with earlier := List.forall_mem_cons.mpr ⟨here, defines.earlier⟩ }

theorem exists_defines_stepsFrom (file : Nat) {o : Outline} {contributions : List Contribution}
    {name : Text} (new : name ∉ o.groups)
    (defined : name ∈ (contributions.foldl afterFile o).groups) :
    ∃ earlier s later, stepsFrom file o contributions = earlier ++ s :: later ∧
      s.Defines name earlier later := by
  induction contributions generalizing file o with
  | nil => exact absurd defined new
  | cons c rest ih =>
    by_cases here : name ∈ (o.afterFile c).groups
    · obtain ⟨earlier, s, later, steps, defines⟩ :=
        exists_defines_steps file c.path (o := o.enterFile) new here
      refine ⟨earlier, s, later ++ stepsFrom (file + 1) (o.afterFile c) rest, ?_, ?_⟩
      · rw [stepsFrom, steps, List.append_assoc, List.cons_append]
      · refine { defines with later := List.forall_mem_append.mpr ⟨defines.later, fun t mem => ?_⟩ }
        exact (t.before.groups_next t.event).subset ((before_initial_stepsFrom mem).subset here)
    · obtain ⟨earlier, s, later, steps, defines⟩ := ih (file + 1) here defined
      refine ⟨o.enterFile.steps file c.path c.events ++ earlier, s, later, ?_, ?_⟩
      · rw [stepsFrom, steps, List.append_assoc]
      · refine { defines with
          earlier := List.forall_mem_append.mpr ⟨fun t mem known => ?_, defines.earlier⟩ }
        exact here ((after_initial_steps mem).subset known)

/-- A group that an event opens stands where it stood before, or at the end. -/
theorem idxOf_opened {o : Outline} {op : GroupCommand} {name : Text}
    (isOpen : (o.opened? op name).isSome) (title : Text) (parents : List Text) (doc : Option Doc)
    (line : Nat) :
    let o' := o.next (.group op name title parents doc line)
    name ∈ o'.groups ∧ o'.groups.idxOf name = o.groups.idxOf name := by
  have known : op = .define ∨ name ∈ o.groups := by
    by_contra neither
    simp [opened?, neither] at isOpen
  by_cases mem : name ∈ o.groups <;> cases op <;>
    simp_all [next, Event.defined?, note, List.idxOf_append]

/-! ## What is asked for is served -/

/-- Whatever is asked for of a group that is defined in the end is linked in the end. -/
theorem mem_served_steps {file : Nat} {path : Text} {o : Outline} {events : List Event}
    {met : List WaitingLink} {w : WaitingLink} (mem : w ∈ met ++ o.requestsAll file path events)
    (defined : w.group ∈ (events.foldl next o).groups) :
    w ∈ met ∧ w.group ∈ o.groups ∨ w ∈ served met (o.steps file path events) := by
  induction events generalizing o met with
  | nil => exact .inl ⟨by simpa [requestsAll] using mem, defined⟩
  | cons e rest ih =>
    rw [requestsAll, ← List.append_assoc] at mem
    obtain ⟨asked, there⟩ | later := ih mem defined
    · by_cases old : w ∈ met ∧ w.group ∈ o.groups
      · exact .inl old
      · refine .inr (List.mem_append_left _ ?_)
        have after : w.group ∈ (Step.after ⟨file, path, o, e⟩).groups := there
        obtain waited | own := List.mem_append.mp asked
        · have new : w.group ∉ o.groups := fun known => old ⟨waited, known⟩
          exact List.mem_append_left _ (by simp [waited, new, after])
        · exact List.mem_append_right _ (List.mem_filter.mpr ⟨own, by simpa using after⟩)
    · exact .inr (List.mem_append_right _ later)

theorem mem_served_stepsFrom {file : Nat} {o : Outline} {contributions : List Contribution}
    {met : List WaitingLink} {w : WaitingLink}
    (mem : w ∈ met ++ requestsFrom file o contributions)
    (defined : w.group ∈ (contributions.foldl afterFile o).groups) :
    w ∈ met ∧ w.group ∈ o.groups ∨ w ∈ served met (stepsFrom file o contributions) := by
  induction contributions generalizing file o met with
  | nil => exact .inl ⟨by simpa [requestsFrom] using mem, defined⟩
  | cons c rest ih =>
    rw [requestsFrom, ← List.append_assoc] at mem
    rw [stepsFrom, served_append, flatMap_steps, List.mem_append]
    obtain ⟨asked, there⟩ | later := ih mem defined
    · obtain old | here := mem_served_steps asked there
      · exact .inl old
      · exact .inr (.inl here)
    · exact .inr (.inr later)

end Outline

/-- The steps of a corpus. -/
def stepsOf (contributions : List Contribution) : List Outline.Step :=
  Outline.stepsFrom 0 {} contributions

/-- The links of a corpus, in the order in which they are made. -/
def servedLinks (contributions : List Contribution) : List WaitingLink :=
  Outline.served [] (stepsOf contributions)

theorem flatMap_stepsOf (contributions : List Contribution) :
    (stepsOf contributions).flatMap Outline.Step.requests = requestsOf contributions :=
  Outline.flatMap_stepsFrom 0 {} contributions

/-- Requests for groups that the corpus defines are all served. -/
theorem mem_servedLinks {contributions : List Contribution} {w : WaitingLink}
    (mem : w ∈ requestsOf contributions) (defined : w.group ∈ definedGroups contributions) :
    w ∈ servedLinks contributions := by
  rw [← Outline.ofContributions_groups] at defined
  obtain ⟨before, -⟩ | served := Outline.mem_served_stepsFrom (List.mem_append_right [] mem) defined
  · cases before
  · exact served

theorem exists_defines {contributions : List Contribution} {name : Text}
    (known : name ∈ definedGroups contributions) : ∃ earlier s later,
      stepsOf contributions = earlier ++ s :: later ∧
        Outline.Step.Defines name earlier s later := by
  rw [← Outline.ofContributions_groups] at known
  exact Outline.exists_defines_stepsFrom 0 List.not_mem_nil known

theorem after_initial {contributions : List Contribution} {s : Outline.Step}
    (mem : s ∈ stepsOf contributions) : s.after.groups <+: definedGroups contributions := by
  rw [← Outline.ofContributions_groups]
  exact Outline.after_initial_stepsFrom mem

/-- The position of a group that a step opens is its position in the corpus. -/
theorem idxOf_definedGroups {contributions : List Contribution} {s : Outline.Step}
    (mem : s ∈ stepsOf contributions) {op : GroupCommand} {name title : Text}
    {parents : List Text} {doc : Option Doc} {line : Nat}
    (event : s.event = .group op name title parents doc line)
    (isOpen : (s.before.opened? op name).isSome) :
    name ∈ definedGroups contributions ∧
      (definedGroups contributions).idxOf name = s.before.groups.idxOf name := by
  obtain ⟨known, position⟩ := Outline.idxOf_opened isOpen title parents doc line
  rw [← event] at known position
  obtain ⟨more, whole⟩ := after_initial mem
  rw [← whole]
  exact ⟨List.mem_append_left more known, (List.idxOf_append_of_mem known).trans position⟩

namespace Collection

/-! ## Changes that make links -/

/-- A run of changes that makes some links, in order. In between no group gets another parent. -/
inductive Links : List WaitingLink → Collection → Collection → Prop where
  | refl (c : Collection) : Links [] c c
  | quiet {served : List WaitingLink} {a b c : Collection} (before : Links served a b)
      (change : Change b c) (parents : parentIn c.groups = parentIn b.groups) : Links served a c
  | link {served : List WaitingLink} {a b : Collection} (before : Links served a b)
      (w : WaitingLink) {group : Nat} (named : b.groupIndex? w.group = some group)
      (within : w.link.Within b) : Links (served ++ [w]) a (b.connect group w.link w.path w.line)

namespace Links

variable {served later : List WaitingLink} {a b c : Collection}

theorem trans (h : Links served a b) (k : Links later b c) : Links (served ++ later) a c := by
  induction k with
  | refl => simpa using h
  | quiet _ change parents ih => exact (ih h).quiet change parents
  | link _ w named within ih => simpa using (ih h).link w named within

theorem single (change : Change a b) (parents : parentIn b.groups = parentIn a.groups) :
    Links [] a b := (refl a).quiet change parents

theorem connect (w : WaitingLink) {group : Nat} (named : a.groupIndex? w.group = some group)
    (within : w.link.Within a) : Links [w] a (a.connect group w.link w.path w.line) :=
  (refl a).link w named within

theorem changes (h : Links served a b) : Changes a b := by
  induction h with
  | refl => exact .refl
  | quiet _ change _ ih => exact ih.tail change
  | link _ w named within ih => exact ih.tail (.connect _ _ _ _ _ (groupIndex?_lt named) within)

end Links

theorem report_links (c : Collection) (problem : Problem) (path : Text) (line : Option Nat) :
    Links [] c (c.report problem path line) := .single (.report c _) rfl

theorem connect_groupIndex? (c : Collection) (group : Nat) (link : GroupLink) (path : Text)
    (line : Nat) (name : Text) :
    (c.connect group link path line).groupIndex? name = c.groupIndex? name := by
  have kept (roll : Text × List Nat) : (link.enrol roll).1 = roll.1 := by cases link <;> rfl
  have names := congrArg (List.map Prod.fst) (connect_rolls c group link path line)
  rw [map_modify (h := id) kept, List.modify_id, List.map_map, List.map_map] at names
  rw [groupIndex?_eq, groupIndex?_eq]
  exact congrArg (List.idxOf? name) names

/-- What waits for a group is linked to it one by one. -/
theorem serve_links (ready : List WaitingLink) (c : Collection) {group : Nat}
    (named : ∀ w ∈ ready, c.groupIndex? w.group = some group)
    (within : ∀ w ∈ ready, w.link.Within c) :
    Links ready c (ready.foldl (fun c w => c.connect group w.link w.path w.line) c) := by
  induction ready generalizing c with
  | nil => exact .refl c
  | cons w rest ih =>
    have first := Links.connect w (named w List.mem_cons_self) (within w List.mem_cons_self)
    refine first.trans (ih _ (fun v mem => ?_) fun v mem => ?_)
    · rw [connect_groupIndex?]
      exact named v (List.mem_cons_of_mem w mem)
    · exact (within v (List.mem_cons_of_mem w mem)).mono first.changes.grows

namespace Serves

variable {c : Collection} {groups : List Text} {requests : List WaitingLink}

theorem request_links (h : c.Serves groups requests) (w : WaitingLink) (within : w.link.Within c) :
    Links ([w].filter fun w => groups.contains w.group) c
      (c.request w.group w.link w.path w.line) := by
  have named := h.groupIndex? w.group
  unfold Collection.request
  by_cases mem : w.group ∈ groups
  · rw [if_pos mem] at named
    rw [named]
    simpa [mem] using Links.connect w named within
  · rw [if_neg mem] at named
    rw [named]
    simpa [mem] using Links.single (.wait c w named within) rfl

theorem requestAll_links (h : c.Serves groups requests) (wanted : List Text) (link : GroupLink)
    (path : Text) (line : Nat) (within : link.Within c) :
    Links ((wanted.map fun group => (⟨group, link, path, line⟩ : WaitingLink)).filter fun w =>
      groups.contains w.group) c (c.requestAll wanted link path line) := by
  induction wanted generalizing c requests with
  | nil => exact .refl c
  | cons group rest ih =>
    have first := h.request_links ⟨group, link, path, line⟩ within
    have others := ih (h.request group link path line) (within.mono first.changes.grows)
    rw [List.map_cons, ← List.singleton_append, List.filter_append]
    exact first.trans others

/-- Entering a group links what has waited for it. -/
theorem enterGroup_links (h : c.Serves groups requests) (coherent : c.Coherent)
    (op : GroupCommand) (name title path : Text) (line : Nat) :
    Links (requests.filter fun w => !groups.contains w.group &&
        (if op = .define then Outline.note groups name else groups).contains w.group) c
      (c.enterGroup op name title path line).1 := by
  unfold Collection.enterGroup
  rw [h.groupIndex?]
  by_cases mem : name ∈ groups
  · have idle : (requests.filter fun w => !groups.contains w.group &&
        (if op = .define then Outline.note groups name else groups).contains w.group) = [] := by
      simp [Outline.note, mem]
    simp only [mem, if_true, idle]
    refine .single (.retitle c _ title) (parentIn_of_sameLinks ?_)
    refine forall₂_modify (fun _ => .rfl) (fun g => ?_) _ _
    split <;> exact ⟨rfl, fun _ => rfl⟩
  · have unknown : c.groupIndex? name = none := by
      rw [h.groupIndex?, if_neg mem]
    cases op with
    | extend => simpa [mem] using report_links c (.unknownGroup name) path (some line)
    | define =>
      have ready : (requests.filter fun w => !groups.contains w.group &&
          (Outline.note groups name).contains w.group) =
          c.waiting.filter fun w => w.group == name := by
        rw [h.waiting, List.filter_filter]
        refine List.filter_congr fun w _ => ?_
        by_cases same : w.group = name <;> simp [Outline.note, same, mem]
      have created := Links.single (.group c name title unknown)
        (parentIn_append { id := c.groups.length, name, title } rfl)
      have there := created.changes.coherent coherent
      simp only [mem, if_false, if_true, ready]
      unfold serveWaiting
      refine (created.quiet (.release _ name) rfl).trans (serve_links _ _ ?_ ?_)
      · intro w waits
        have named : w.group = name := by simpa using (List.mem_filter.mp waits).2
        have fresh := List.idxOf_eq_length (l := c.groups.map Group.name) (a := name)
          (by rwa [h.names])
        rw [groupIndex?_eq, named, List.map_append]
        refine (idxOf?_of_mem (by simp)).trans ?_
        rw [List.idxOf_append_of_notMem (by rwa [h.names])]
        simp
      · exact fun w waits => there.waiting w (List.mem_of_mem_filter waits)

/-- A link to a group that is there. -/
theorem connect_links (h : c.Serves groups requests) (w : WaitingLink) (mem : w.group ∈ groups)
    (within : w.link.Within c) :
    Links ([w].filter fun w => groups.contains w.group) c
      (c.connect (groups.idxOf w.group) w.link w.path w.line) := by
  have made := h.request_links w within
  rwa [Collection.request, h.groupIndex?, if_pos mem] at made

theorem placeGroup_links (h : c.Serves groups requests) {o : Outline} {name : Text}
    (mem : name ∈ groups) (defined : ∀ scope, o.current = some scope → scope ∈ groups)
    (op : GroupCommand) (parents : List Text) (doc : Option Doc) (path : Text) (line : Nat) :
    Links (((o.wantedParents op name parents).map fun parent =>
        (⟨parent, .parentOf (groups.idxOf name), path, line⟩ : WaitingLink)).filter fun w =>
          groups.contains w.group) c
      (c.placeGroup (o.current.map groups.idxOf) op (groups.idxOf name) parents doc path line) := by
  have documented : Links [] c ((doc.map (c.documentGroup (groups.idxOf name))).getD c) := by
    cases doc with
    | none => exact .refl c
    | some doc =>
      refine .single (.document c _ doc) (parentIn_of_sameLinks ?_)
      exact forall₂_modify (fun _ => .rfl) (fun _ => ⟨rfl, fun _ => rfl⟩) _ _
  have serves :
      ((doc.map (c.documentGroup (groups.idxOf name))).getD c).Serves groups requests := by
    cases doc with
    | none => exact h
    | some doc => exact h.congr (documentGroup_rolls c _ doc) rfl
  have child : GroupLink.Within ((doc.map (c.documentGroup (groups.idxOf name))).getD c)
      (.parentOf (groups.idxOf name)) := by
    rw [GroupLink.Within, serves.length]
    exact List.idxOf_lt_length_of_mem mem
  refine documented.trans ?_
  unfold Collection.placeGroup
  dsimp only
  generalize (doc.map (c.documentGroup (groups.idxOf name))).getD c = c' at serves child ⊢
  cases parents with
  | cons parent rest =>
    simpa [Outline.wantedParents] using
      serves.requestAll_links (parent :: rest) (.parentOf (groups.idxOf name)) path line child
  | nil =>
    cases op with
    | extend => simpa [Outline.wantedParents] using Links.refl c'
    | define =>
      cases hc : o.current with
      | none => simpa [Outline.wantedParents, hc] using Links.refl c'
      | some scope =>
        have inside := defined scope hc
        by_cases itself : scope = name
        · simpa [Outline.wantedParents, hc, itself] using Links.refl c'
        · have apart : groups.idxOf scope ≠ groups.idxOf name :=
            fun same => itself ((List.idxOf_inj inside).mp same)
          simpa [Outline.wantedParents, hc, itself, apart, Collection.connect] using
            serves.connect_links ⟨scope, .parentOf (groups.idxOf name), path, line⟩ inside child

end Serves

theorem record_links (c : Collection) (decl : Declaration) (doc : Option Doc) (file : Nat)
    (path : Text) (line : Nat) (known : file < c.files.length) :
    Links [] c (c.record decl doc file path line).1 := by
  unfold record
  split
  next index found =>
    have changed := Links.single (.redeclare c index file doc known) rfl
    dsimp only
    split
    · exact changed.trans (report_links _ _ _ _)
    · exact changed
  next new => exact .single (.declare c decl doc file known (by simpa using new)) rfl

/-! ## Events -/

namespace Progress

namespace Follows

variable {p : Progress} {files : Nat} {o : Outline} {requests : List WaitingLink}

theorem wanted_links (h : p.Follows files o requests) {c : Collection}
    (served : c.Serves o.groups requests) (named : List Text) (link : GroupLink) (path : Text)
    (line : Nat) (within : link.Within c) :
    Links (((o.wanted named).map fun group => (⟨group, link, path, line⟩ : WaitingLink)).filter
        fun w => o.groups.contains w.group) c
      (if !named.isEmpty then c.requestAll named link path line
        else match p.current with
          | some scope => c.connect scope link path line
          | none => c) := by
  cases named with
  | cons name rest =>
    simpa [Outline.wanted] using served.requestAll_links (name :: rest) link path line within
  | nil =>
    simp only [List.isEmpty_nil, Bool.not_true, Bool.false_eq_true, if_false, Outline.wanted,
      if_true, h.current]
    cases hc : o.current with
    | none => simpa [Outline.number] using Links.refl c
    | some name =>
      simpa [Outline.number] using
        served.connect_links ⟨name, link, path, line⟩ (h.currentDefined hc) within

/-- What an event that names no group makes of what was asked for before it: nothing. -/
theorem served_of_same {s : Outline.Step} (same : s.after.groups = s.before.groups) :
    s.served requests = s.requests.filter fun w => s.before.groups.contains w.group := by
  simp [Outline.Step.served, same]

theorem declare_links (h : p.Follows files o requests) (within : p.Within) {file : Nat}
    (known : file < p.collection.files.length) (path : Text) (decl : Declaration)
    (doc : Option Doc) (named : List Text) (line : Nat) :
    Links (Outline.Step.served ⟨file, path, o, .declare decl doc named line⟩ requests) p.collection
      (p.declare file path decl doc named line).collection := by
  have number :=
    (record_number p.collection within.coherent.identities decl doc file path line).1
  have recorded := record_links p.collection decl doc file path line known
  have serves := h.serves.record decl doc file path line
  have bound := (record_changes p.collection decl doc file path line known within.coherent).2
  rw [served_of_same rfl, declare_eq]
  rw [← List.nil_append (List.filter _ _)]
  refine recorded.trans ?_
  dsimp only
  have identities : p.collection.identities = o.symbols := congrArg Prod.fst h.census
  rw [identities] at number
  rw [number] at bound ⊢
  generalize (p.collection.record decl doc file path line).1 = c at serves bound ⊢
  unfold placeSymbol
  cases hd : decl.owner with
  | none =>
    have made := h.wanted_links serves named (.member (o.symbols.idxOf decl.identity)) path line
      bound
    cases hc : p.current <;>
      simpa [Outline.Step.requests, Outline.requests, hd, hc, Collection.connect] using made
  | some owner =>
    cases named with
    | nil => simpa [Outline.Step.requests, Outline.requests, hd] using Links.refl c
    | cons name rest =>
      simpa [Outline.Step.requests, Outline.requests, Outline.wanted] using
        serves.requestAll_links (name :: rest) (.member (o.symbols.idxOf decl.identity)) path line
          bound

theorem nameGroup_links (h : p.Follows files o requests) (within : p.Within) (file : Nat)
    (path : Text) (op : GroupCommand) (name title : Text) (parents : List Text) (doc : Option Doc)
    (line : Nat) :
    Links (Outline.Step.served ⟨file, path, o, .group op name title parents doc line⟩ requests)
      p.collection (p.nameGroup path op name title parents doc line).collection := by
  obtain ⟨entered, opened⟩ := h.serves.enterGroup op name title path line
  have served := h.serves.enterGroup_links within.coherent op name title path line
  generalize he : Event.group op name title parents doc line = e
  have after : (o.next e).groups =
      if op = .define then Outline.note o.groups name else o.groups := by
    subst he
    cases op <;> rfl
  rw [← after] at entered served
  rw [nameGroup_eq]
  dsimp only
  generalize p.collection.enterGroup op name title path line = result at entered opened served ⊢
  obtain ⟨c, group?⟩ := result
  dsimp only at entered opened served ⊢
  refine served.trans ?_
  by_cases isOpen : op = .define ∨ name ∈ o.groups
  · have here : p.current = o.current.map (o.next e).groups.idxOf := by
      rw [h.current]
      exact (number_next e fun scope => h.currentDefined).symm
    obtain ⟨mem, position⟩ : name ∈ (o.next e).groups ∧
        (o.next e).groups.idxOf name = o.groups.idxOf name := by
      subst he
      exact Outline.idxOf_opened (by simp [Outline.opened?, isOpen]) title parents doc line
    have placed := entered.placeGroup_links mem
      (fun scope current => mem_next e (h.currentDefined current)) op parents doc path line
    rw [← here, position] at placed
    rw [if_pos isOpen] at opened
    subst he
    simpa [opened, Outline.Step.requests, Outline.Step.after, Outline.requests, Outline.opened?,
      isOpen] using placed
  · rw [if_neg isOpen] at opened
    subst he
    simpa [opened, Outline.Step.requests, Outline.requests, Outline.opened?, isOpen] using
      Links.refl c

/-- An event makes the links that the outline says. -/
theorem event_links (h : p.Follows files o requests) (within : p.Within) {file : Nat}
    (known : file < p.collection.files.length) (path : Text) (e : Event) :
    Links (Outline.Step.served ⟨file, path, o, e⟩ requests) p.collection
      (p.event file path e).collection := by
  cases e with
  | group op name title parents doc line =>
    exact h.nameGroup_links within file path op name title parents doc line
  | openScope group =>
    rw [served_of_same rfl]
    exact .refl _
  | closeScope line =>
    rw [served_of_same rfl]
    change Links [] _ (p.closeScope path line).collection
    unfold Progress.closeScope
    split
    · exact .refl _
    · exact report_links _ _ _ _
  | file named =>
    rw [served_of_same rfl]
    exact h.wanted_links h.serves named (.file file) path 0 known
  | declare decl doc named line => exact h.declare_links within known path decl doc named line

theorem events_links (h : p.Follows files o requests) (within : p.Within) {file : Nat}
    (known : file < p.collection.files.length) (path : Text) (events : List Event) :
    Links (Outline.served requests (o.steps file path events)) p.collection
      (events.foldl (Progress.event file path) p).collection := by
  induction events generalizing p o requests with
  | nil => exact .refl _
  | cons e rest ih =>
    obtain ⟨changes, within'⟩ := event_changes file path p e within known
    have here := h.event_links within known path e
    have later := ih (h.event within file path e) within' (known.trans_le changes.grows.files)
    exact here.trans later

end Follows

end Progress

/-! ## Files -/

theorem Agrees.add_links {c : Collection} {files : Nat} {o : Outline}
    {requests : List WaitingLink} (h : c.Agrees files o requests) (next : Contribution) :
    Links (Outline.served requests (o.enterFile.steps files next.path next.events)) c
      (c.add next) := by
  obtain ⟨within, started⟩ := h.started next
  obtain rfl : c.files.length = files := congrArg Prod.snd h.census
  have begun : Links [] c (c.start next).collection :=
    (Links.single (.file c next.path next.includes next.doc) rfl).quiet
      (.report _ next.diagnostics) rfl
  have known : c.files.length < (c.start next).collection.files.length := by simp [start]
  have taken := started.events_links within known next.path next.events
  rw [add_eq]
  refine begun.trans ?_
  unfold leave
  split
  · exact taken
  · exact taken.quiet (.report _ _) rfl

theorem Agrees.addAll_links {c : Collection} {files : Nat} {o : Outline}
    {requests : List WaitingLink} (h : c.Agrees files o requests)
    (contributions : List Contribution) :
    Links (Outline.served requests (Outline.stepsFrom files o contributions)) c
      (contributions.foldl Collection.add c) := by
  induction contributions generalizing c files o requests with
  | nil => exact .refl c
  | cons next rest ih =>
    rw [Outline.stepsFrom, Outline.served_append, Outline.flatMap_steps]
    exact (h.add_links next).trans (ih (h.add next))

/-- A corpus is collected by making its links in the order that the outline says. -/
theorem ofContributions_links (contributions : List Contribution) :
    Links (servedLinks contributions) {} (ofContributions contributions) :=
  empty_agrees.addAll_links contributions

end Collection

end DocComment
