import DocComment.Proofs.Corpus.Integrity
import DocComment.Proofs.Corpus.Parents

/-!
# Requests for parents

In the finished model a group has the first parent that it was offered and that is not below it, and
every request for a parent can be accounted for. Requests are offered in the order in which their
groups are there, so the first request is sure to win only if its group is defined by then.
-/

set_option autoImplicit false

namespace DocComment

open GroupForest Relation Collection

/-- The groups that some links offer to a group as its parents, in order. -/
def offersTo (child : Nat) (links : List WaitingLink) : List Text :=
  (links.filter fun w => w.link == .parentOf child).map WaitingLink.group

theorem mem_offersTo {child : Nat} {links : List WaitingLink} {name : Text} :
    name ∈ offersTo child links ↔ ∃ w ∈ links, w.link = .parentOf child ∧ w.group = name := by
  simp [offersTo, and_assoc]

theorem offersTo_append (child : Nat) (a b : List WaitingLink) :
    offersTo child (a ++ b) = offersTo child a ++ offersTo child b := by
  simp [offersTo]

theorem offersTo_cons {child : Nat} {w : WaitingLink} (link : w.link = .parentOf child)
    (rest : List WaitingLink) : offersTo child (w :: rest) = w.group :: offersTo child rest := by
  simp [offersTo, link]

section

variable (options : Options) (contributions : List Contribution)

theorem ofContributions_parentIn :
    parentIn (Model.ofContributions options contributions).groups =
      parentIn (ofContributions contributions).groups := by
  have parents := toModel_groups_map options (ofContributions contributions) Group.parent
    fun _ _ _ _ => rfl
  have at_ (groups : List Group) (g : Nat) :
      parentIn groups g = (groups.map Group.parent)[g]?.join := by
    rw [parentIn, List.getElem?_map]
    cases groups[g]? <;> rfl
  funext g
  rw [at_, at_]
  exact congrArg (fun parents => parents[g]?.join) parents

theorem ofContributions_isChild :
    IsChild (Model.ofContributions options contributions).groups =
      IsChild (ofContributions contributions).groups := by
  funext child parent
  rw [IsChild, IsChild, ofContributions_parentIn]

theorem ofContributions_names :
    (Model.ofContributions options contributions).groups.map Group.name =
      definedGroups contributions := by
  rw [← (ofContributions_serves contributions).names]
  exact toModel_groups_map options (ofContributions contributions) Group.name fun _ _ _ _ => rfl

end

variable {contributions : List Contribution}

theorem groupName_idxOf {name : Text} (known : name ∈ definedGroups contributions) :
    (ofContributions contributions).groupName ((definedGroups contributions).idxOf name) =
      name := by
  have names := (ofContributions_serves contributions).names
  have here : ((ofContributions contributions).groups.map Group.name)[
      (definedGroups contributions).idxOf name]? = some name := by
    rw [names]
    exact List.getElem?_idxOf known
  rw [List.getElem?_map] at here
  rw [groupName, here, Option.getD_some]

theorem exists_name {i : Nat} (known : i < (ofContributions contributions).groups.length) :
    ∃ name ∈ definedGroups contributions, (definedGroups contributions).idxOf name = i := by
  have serves := ofContributions_serves contributions
  have inside : i < (definedGroups contributions).length := by rwa [← serves.length]
  exact ⟨_, List.getElem_mem inside, serves.distinct.idxOf_getElem i inside⟩

theorem idxOf_of_groupIndex? {name : Text} {i : Nat}
    (found : (ofContributions contributions).groupIndex? name = some i) :
    name ∈ definedGroups contributions ∧ (definedGroups contributions).idxOf name = i := by
  rw [(ofContributions_serves contributions).groupIndex?] at found
  split at found
  next known => exact ⟨known, Option.some.inj found⟩
  next => cases found

/-- What is asked for where a group is opened: the parents that are named for it. -/
theorem requests_group {s : Outline.Step} (mem : s ∈ stepsOf contributions) {op : GroupCommand}
    {child title : Text} {parents : List Text} {doc : Option Doc} {line : Nat}
    (event : s.event = .group op child title parents doc line)
    (isOpen : (s.before.opened? op child).isSome) (asked : parents ≠ []) :
    s.requests = parents.map fun parent =>
      ⟨parent, .parentOf ((definedGroups contributions).idxOf child), s.path, line⟩ := by
  have wanted : s.before.wantedParents op child parents = parents := by
    simp [Outline.wantedParents, asked]
  rw [Outline.Step.requests, event, Outline.requests, if_pos isOpen, wanted,
    (idxOf_definedGroups mem event isOpen).2]

/-! ## The first parent -/

/-- Nothing is found among groups that are below the child. -/
theorem find?_below {groups : List Group} {child : Nat} {parents : List Nat}
    [DecidablePred fun parent => ¬ Below groups parent child]
    (below : ∀ parent ∈ parents, Below groups parent child) :
    parents.find? (fun parent => ¬ Below groups parent child) = none := by
  simpa [List.find?_eq_none] using below

open Classical in
theorem parentIn_eq_find (contributions : List Contribution) (child : Nat) :
    parentIn (ofContributions contributions).groups child =
      ((offersTo child (servedLinks contributions)).map (definedGroups contributions).idxOf).find?
        fun parent => ¬ Below (ofContributions contributions).groups parent child := by
  have answers := ofContributions_answers contributions
  cases up : parentIn (ofContributions contributions).groups child with
  | none =>
    refine (find?_below fun parent mem => ?_).symm
    obtain ⟨name, offered, rfl⟩ := List.mem_map.mp mem
    obtain ⟨w, served, link, rfl⟩ := mem_offersTo.mp offered
    obtain ⟨parent, found, answered⟩ := answers.answered w served child link
    obtain ⟨-, rfl⟩ := idxOf_of_groupIndex? found
    cases answered with
    | granted edge => exact absurd (up.symm.trans edge) (by simp)
    | circular below => exact below
    | refused edge => exact absurd (up.symm.trans edge) (by simp)
  | some parent =>
    obtain ⟨before, w, after, served, link, found, earlier⟩ := answers.first child parent up
    obtain ⟨-, rfl⟩ := idxOf_of_groupIndex? found
    have apart := not_below_of_isChild answers.forest up
    rw [served, offersTo_append, offersTo_cons link, List.map_append, List.find?_append,
      find?_below, List.map_cons, Option.none_or, List.find?_cons_of_pos (by simpa using apart)]
    intro parent mem
    obtain ⟨name, offered, rfl⟩ := List.mem_map.mp mem
    obtain ⟨v, made, link, rfl⟩ := mem_offersTo.mp offered
    obtain ⟨other, found, below⟩ := earlier v made link
    obtain ⟨-, rfl⟩ := idxOf_of_groupIndex? found
    exact below

/-- Where the group of a request is defined by then, its parent is offered before everything but
what was asked for before. -/
theorem offered_at_once {before after : List Outline.Step} {s : Outline.Step}
    (steps : stepsOf contributions = before ++ s :: after) {w : WaitingLink}
    {rest : List WaitingLink} (asked : s.requests = w :: rest) (there : w.group ∈ s.after.groups)
    {child : Nat} (link : w.link = .parentOf child) :
    ∃ early late, servedLinks contributions = early ++ late ∧
      (offersTo child late).head? = some w.group ∧ ∀ v ∈ early, ∃ t ∈ before, v ∈ t.requests := by
  have own : s.requests.filter (fun w => s.after.groups.contains w.group) =
      w :: rest.filter fun w => s.after.groups.contains w.group := by
    simp [asked, there]
  have earlier := Outline.served_subset [] before
  rw [List.nil_append] at earlier
  have whole := Outline.served_append [] before (s :: after)
  rw [Outline.served, Outline.Step.served, own, List.nil_append, List.append_assoc,
    List.cons_append, ← List.append_assoc, ← steps] at whole
  refine ⟨_, _, whole, by rw [offersTo_cons link]; rfl, fun v mem => List.mem_flatMap.mp ?_⟩
  obtain done | waited := List.mem_append.mp mem
  · exact earlier done
  · exact List.mem_of_mem_filter waited

/-- Otherwise it is offered where the group is defined, after what was asked for by then of groups
that are defined before. -/
theorem offered_when_defined {earlier later : List Outline.Step} {d : Outline.Step} {name : Text}
    (steps : stepsOf contributions = earlier ++ d :: later) (defines : d.Defines name earlier later)
    {w : WaitingLink} (asked : w ∈ earlier.flatMap Outline.Step.requests) (named : w.group = name)
    {child : Nat} (link : w.link = .parentOf child) :
    ∃ early late, servedLinks contributions = early ++ late ∧
      (offersTo child late).head? = some name ∧ ∀ v ∈ early, ∃ t ∈ earlier, v ∈ t.requests ∧
        (definedGroups contributions).idxOf v.group < (definedGroups contributions).idxOf name := by
  have whole := Outline.served_append [] earlier (d :: later)
  rw [Outline.served, Outline.Step.served, List.nil_append, List.append_assoc, ← steps] at whole
  refine ⟨_, _, whole, ?_, fun v mem => ?_⟩
  · -- All that is served first at this step has waited for the same group.
    have same : ∀ v ∈ (earlier.flatMap Outline.Step.requests).filter (fun w =>
        !d.before.groups.contains w.group && d.after.groups.contains w.group), v.group = name := by
      intro v mem
      obtain ⟨new, there⟩ : v.group ∉ d.before.groups ∧ v.group ∈ d.after.groups := by
        simpa using (List.mem_filter.mp mem).2
      exact Outline.eq_of_new new there defines.before defines.after
    have waited : w ∈ (earlier.flatMap Outline.Step.requests).filter fun w =>
        !d.before.groups.contains w.group && d.after.groups.contains w.group := by
      refine List.mem_filter.mpr ⟨asked, ?_⟩
      simp [named, defines.before, defines.after]
    generalize (earlier.flatMap Outline.Step.requests).filter (fun w =>
      !d.before.groups.contains w.group && d.after.groups.contains w.group) = ready at same waited
    have offered : w.group ∈ offersTo child ready := mem_offersTo.mpr ⟨w, waited, link, rfl⟩
    obtain ⟨first, more, offers⟩ := List.exists_cons_of_ne_nil (List.ne_nil_of_mem offered)
    obtain ⟨v, mem, -, rfl⟩ := mem_offersTo.mp (offers ▸ List.mem_cons_self)
    rw [offersTo_append, offers, List.cons_append, List.head?_cons, same v mem]
  · have asked := Outline.served_subset [] earlier mem
    rw [List.nil_append] at asked
    obtain ⟨t, here, asks⟩ := List.mem_flatMap.mp asked
    refine ⟨t, here, asks, ?_⟩
    obtain ⟨u, by', known⟩ := Outline.defined_of_mem_served mem
    have inRun : u ∈ stepsOf contributions := by simp [steps, by']
    obtain ⟨more, all⟩ := after_initial inRun
    rw [← all, List.idxOf_append_of_mem known, List.idxOf_append_of_notMem (defines.earlier u by')]
    exact (List.idxOf_lt_length_of_mem known).trans_le (Nat.le_add_right _ _)

/-- What is made before the first request of a step is offered was asked for before, or, while that
request waits, of a group that is defined before. -/
theorem offered_first {before after : List Outline.Step} {s : Outline.Step}
    (steps : stepsOf contributions = before ++ s :: after) {w : WaitingLink}
    {rest : List WaitingLink} (asked : s.requests = w :: rest)
    (known : w.group ∈ definedGroups contributions) {child : Nat}
    (link : w.link = .parentOf child) :
    ∃ early late, servedLinks contributions = early ++ late ∧
      (offersTo child late).head? = some w.group ∧
      ∀ v ∈ early, ∃ t ∈ stepsOf contributions, v ∈ t.requests ∧
        (t ∈ before ∨ w.group ∉ t.after.groups ∧
          (definedGroups contributions).idxOf v.group <
            (definedGroups contributions).idxOf w.group) := by
  by_cases there : w.group ∈ s.after.groups
  · obtain ⟨early, late, served, offered, asks⟩ := offered_at_once steps asked there link
    refine ⟨early, late, served, offered, fun v mem => ?_⟩
    obtain ⟨t, here, asks⟩ := asks v mem
    exact ⟨t, by simp [steps, here], asks, .inl here⟩
  · obtain ⟨earlier, d, later, steps', defines⟩ := exists_defines known
    have waits : s ∈ earlier := by
      have mem : s ∈ stepsOf contributions := by simp [steps]
      rw [steps', List.mem_append, List.mem_cons] at mem
      obtain waits | rfl | after := mem
      · exact waits
      · exact absurd defines.after there
      · exact absurd (defines.later s after) there
    have own : w ∈ s.requests := asked ▸ List.mem_cons_self
    obtain ⟨early, late, served, offered, asks⟩ := offered_when_defined steps' defines
      (List.mem_flatMap.mpr ⟨s, waits, own⟩) rfl link
    refine ⟨early, late, served, offered, fun v mem => ?_⟩
    obtain ⟨t, here, asks, sooner⟩ := asks v mem
    exact ⟨t, by simp [steps', here], asks, .inr ⟨defines.earlier t here, sooner⟩⟩

open Classical in
/-- The parent of a group is the first that is offered to it and is not below it. So the first that
it asks for wins, wherever that one is defined, unless another group that it asks for is linked
before: one that is defined before the first is, and asked for by then. -/
theorem first_offered_parent_wins (options : Options) (contributions : List Contribution) :
    let m := Model.ofContributions options contributions
    let names := definedGroups contributions
    m.groups.map Group.name = names ∧
    (∀ child ∈ names, parentIn m.groups (names.idxOf child) =
      ((offersTo (names.idxOf child) (servedLinks contributions)).map names.idxOf).find?
        fun parent => ¬ Below m.groups parent (names.idxOf child)) ∧
    ∀ before s after, stepsOf contributions = before ++ s :: after →
      ∀ op child title parent rest doc line,
        s.event = .group op child title (parent :: rest) doc line →
        (s.before.opened? op child).isSome →
        parent ∈ names →
        (∀ t ∈ stepsOf contributions, ∀ w ∈ t.requests,
          w.link = .parentOf (names.idxOf child) → w.group ∈ names →
          t ∈ before ∨ parent ∉ t.after.groups ∧ names.idxOf w.group < names.idxOf parent →
          Below m.groups (names.idxOf w.group) (names.idxOf child)) →
        ¬ Below m.groups (names.idxOf parent) (names.idxOf child) →
        IsChild m.groups (names.idxOf child) (names.idxOf parent) := by
  intro m names
  have edges : IsChild m.groups = IsChild (ofContributions contributions).groups :=
    ofContributions_isChild options contributions
  have parents : parentIn m.groups = parentIn (ofContributions contributions).groups :=
    ofContributions_parentIn options contributions
  have first (child : Nat) := parentIn_eq_find contributions child
  simp only [Below, ← edges, ← parents] at first
  refine ⟨ofContributions_names options contributions, fun child _ => first _, ?_⟩
  intro before s after steps op child title parent rest doc line event isOpen known others apart
  have mem : s ∈ stepsOf contributions := by simp [steps]
  have asked := requests_group mem event isOpen (List.cons_ne_nil parent rest)
  obtain ⟨early, late, served, offered, asks⟩ := offered_first steps asked known rfl
  obtain ⟨more, offers⟩ := List.head?_eq_some_iff.mp offered
  rw [IsChild, first, served, offersTo_append, offers, List.map_append,
    List.find?_append, find?_below, List.map_cons, Option.none_or,
    List.find?_cons_of_pos (by simpa using apart)]
  intro other mem
  obtain ⟨name, offered, rfl⟩ := List.mem_map.mp mem
  obtain ⟨v, made, link, rfl⟩ := mem_offersTo.mp offered
  have done : v ∈ servedLinks contributions := by simp [served, made]
  obtain ⟨_, found, _⟩ := (ofContributions_answers contributions).answered v done _ link
  obtain ⟨t, here, asked, sooner⟩ := asks v made
  exact others t here v asked link (idxOf_of_groupIndex? found).1 sooner

/-- A group asks for a parent that is defined after it, and for another one once that is done. -/
def inTurn : List Contribution :=
  [⟨0, "a.h".toList, [], none,
    [.group .define ['Q'] [] [] none 1, .group .define ['C'] [] [['P']] none 3], []⟩,
   ⟨1, "b.h".toList, [], none,
    [.group .define ['P'] [] [] none 2, .group .extend ['C'] [] [['Q']] none 5], []⟩]

theorem inTurn_first_wins : ∃ before s after, stepsOf inTurn = before ++ s :: after ∧
    s.event = .group .define ['C'] [] [['P']] none 3 ∧ (s.before.opened? .define ['C']).isSome ∧
      ['P'] ∈ definedGroups inTurn ∧
        IsChild (Model.ofContributions {} inTurn).groups
          ((definedGroups inTurn).idxOf ['C']) ((definedGroups inTurn).idxOf ['P']) := by
  obtain ⟨-, -, first⟩ := first_offered_parent_wins {} inTurn
  refine ⟨[_], _, [_, _], rfl, rfl, rfl, by decide, ?_⟩
  refine first [_] _ [_, _] rfl .define ['C'] [] ['P'] [] none 3 rfl rfl (by decide) ?_ ?_
  · intro t mem w asks _ _ sooner
    have held : ∀ t ∈ stepsOf inTurn, ['P'] ∉ t.after.groups → ∀ w ∈ t.requests,
        ¬ (definedGroups inTurn).idxOf w.group < (definedGroups inTurn).idxOf ['P'] := by decide
    obtain before | ⟨absent, sooner⟩ := sooner
    · obtain rfl := List.mem_singleton.mp before
      exact absurd asks List.not_mem_nil
    · exact absurd sooner (held t mem absent w asks)
  · intro below
    exact absurd (eq_of_reaches_of_top below (by decide)) (by decide)

/-- A group asks for a parent that is defined after it, and in between for another one. -/
def heldOver : List Contribution :=
  [⟨0, "a.h".toList, [], none,
    [.group .define ['Q'] [] [] none 1, .group .define ['C'] [] [['P']] none 3,
      .group .extend ['C'] [] [['Q']] none 8, .group .define ['P'] [] [] none 12], []⟩]

/-- The first parent that is asked for loses if it is defined too late. -/
theorem heldOver_first_loses :
    ¬ ∀ (options : Options) (contributions : List Contribution),
      let m := Model.ofContributions options contributions
      let names := definedGroups contributions
      ∀ before s after, stepsOf contributions = before ++ s :: after →
        ∀ op child title parent rest doc line,
          s.event = .group op child title (parent :: rest) doc line →
          (s.before.opened? op child).isSome →
          parent ∈ names →
          (∀ t ∈ before, ∀ w ∈ t.requests, w.link ≠ .parentOf (names.idxOf child)) →
          ¬ Below m.groups (names.idxOf parent) (names.idxOf child) →
          IsChild m.groups (names.idxOf child) (names.idxOf parent) := by
  intro first
  have earlier : ∀ t ∈ (stepsOf heldOver).take 1, t.requests = [] := by decide
  have granted := first {} heldOver [_] _ [_, _] rfl .define ['C'] [] ['P'] [] none 3 rfl rfl
    (by decide) (fun t mem w asks => absurd (earlier t mem ▸ asks) List.not_mem_nil)
    fun below => absurd (eq_of_reaches_of_top below (by decide)) (by decide)
  have kept : parentIn (Model.ofContributions {} heldOver).groups 1 = some 0 := by decide
  cases kept.symm.trans granted

/-! ## Every request -/

/-- A request for a parent is granted, or turned down with a report that names the parent that is
kept, or reported because the group is not defined anywhere, or asks for a group below the child. -/
theorem parent_requests_answered (options : Options) (contributions : List Contribution) :
    let m := Model.ofContributions options contributions
    let names := definedGroups contributions
    m.groups.map Group.name = names ∧
    ∀ s ∈ stepsOf contributions, ∀ op child title parents doc line,
      s.event = .group op child title parents doc line → (s.before.opened? op child).isSome →
      ∀ parent ∈ parents,
        IsChild m.groups (names.idxOf child) (names.idxOf parent) ∨
        (∃ kept ∈ names, IsChild m.groups (names.idxOf child) (names.idxOf kept) ∧
          ⟨.secondParent child kept parent, some s.path, some line⟩ ∈ m.diagnostics) ∨
        ⟨.unresolved parent .notFound, some s.path, if line = 0 then none else some line⟩ ∈
          m.diagnostics ∨
        Below m.groups (names.idxOf parent) (names.idxOf child) := by
  intro m names
  refine ⟨ofContributions_names options contributions, ?_⟩
  intro s mem op child title parents doc line event isOpen parent asked
  have there := (idxOf_definedGroups mem event isOpen).1
  have requested : ⟨parent, .parentOf (names.idxOf child), s.path, line⟩ ∈
      requestsOf contributions := by
    rw [← flatMap_stepsOf]
    refine List.mem_flatMap.mpr ⟨s, mem, ?_⟩
    rw [requests_group mem event isOpen (List.ne_nil_of_mem asked)]
    exact List.mem_map_of_mem asked
  have edges : IsChild m.groups = IsChild (ofContributions contributions).groups :=
    ofContributions_isChild options contributions
  have reports : m.diagnostics = (ofContributions contributions).diagnostics ++
      (ofContributions contributions).waiting.map unlinked := rfl
  have answers := ofContributions_answers contributions
  rw [Below, edges]
  by_cases known : parent ∈ names
  · obtain ⟨_, found, answered⟩ :=
      answers.answered _ (mem_servedLinks requested known) _ rfl
    obtain ⟨-, rfl⟩ := idxOf_of_groupIndex? found
    cases answered with
    | granted edge => exact .inl edge
    | circular below => exact .inr (.inr (.inr below))
    | refused edge reported =>
      obtain ⟨kept, known', rfl⟩ := exists_name (parent_lt answers.forest edge)
      rw [groupName_idxOf there, groupName_idxOf known', groupName_idxOf known] at reported
      refine .inr (.inl ⟨kept, known', edge, ?_⟩)
      rw [reports]
      exact List.mem_append_left _ reported
  · refine .inr (.inr (.inl ?_))
    rw [reports, (ofContributions_serves contributions).waiting]
    refine List.mem_append_right _ (List.mem_map.mpr ⟨_, List.mem_filter.mpr ⟨requested, ?_⟩, rfl⟩)
    simpa using known

/-- A group that asks for a parent, for another one, for one that nothing defines and for itself. -/
def fourParents : List Contribution :=
  [⟨0, "a.h".toList, [], none,
    [.group .define ['A'] [] [] none 1,
      .group .define ['C'] [] [['A'], ['B'], ['N'], ['C']] none 3,
      .group .define ['B'] [] [] none 5], []⟩]

theorem fourParents_answered :
    let m := Model.ofContributions {} fourParents
    let names := definedGroups fourParents
    ∃ s ∈ stepsOf fourParents,
      s.event = .group .define ['C'] [] [['A'], ['B'], ['N'], ['C']] none 3 ∧
      (s.before.opened? .define ['C']).isSome ∧
      (∀ parent ∈ [['A'], ['B'], ['N'], ['C']],
        IsChild m.groups (names.idxOf ['C']) (names.idxOf parent) ∨
        (∃ kept ∈ names, IsChild m.groups (names.idxOf ['C']) (names.idxOf kept) ∧
          ⟨.secondParent ['C'] kept parent, some s.path, some 3⟩ ∈ m.diagnostics) ∨
        ⟨.unresolved parent .notFound, some s.path, some 3⟩ ∈ m.diagnostics ∨
        Below m.groups (names.idxOf parent) (names.idxOf ['C'])) ∧
      m.diagnostics =
        [⟨.secondParent ['C'] ['A'] ['B'], some "a.h".toList, some 3⟩,
          ⟨.unresolved ['N'] .notFound, some "a.h".toList, some 3⟩] := by
  intro m names
  have mem : (stepsOf fourParents)[1] ∈ stepsOf fourParents := List.getElem_mem (by decide)
  obtain ⟨-, answered⟩ := parent_requests_answered {} fourParents
  exact ⟨_, mem, rfl, rfl, answered _ mem .define ['C'] [] _ none 3 rfl rfl, by decide⟩

/-- A group that asks for itself is a root, and nothing is reported. -/
theorem ownParent_unreported :
    ¬ ∀ (options : Options) (contributions : List Contribution),
      let m := Model.ofContributions options contributions
      let names := definedGroups contributions
      ∀ s ∈ stepsOf contributions, ∀ op child title parents doc line,
        s.event = .group op child title parents doc line → (s.before.opened? op child).isSome →
        ∀ parent ∈ parents,
          IsChild m.groups (names.idxOf child) (names.idxOf parent) ∨ ∃ d, d ∈ m.diagnostics := by
  intro answered
  have circle := answered {}
    [⟨0, "a.h".toList, [], none, [.group .define ['C'] [] [['C']] none 3], []⟩] _
    List.mem_cons_self .define ['C'] [] [['C']] none 3 rfl rfl ['C'] List.mem_cons_self
  obtain granted | ⟨d, reported⟩ := circle
  · cases granted
  · cases reported

end DocComment
