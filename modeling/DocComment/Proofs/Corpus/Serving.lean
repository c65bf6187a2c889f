import DocComment.Proofs.Corpus.Ledger
import DocComment.Proofs.Corpus.Requests

/-!
# Requests that wait

A request for a group that is not defined yet waits, and when the group comes into being
everything that has waited for it is served in the order in which it was met. The group then has
the symbols that it would have had if it had been there from the start.
-/

set_option autoImplicit false

namespace DocComment

def Member.symbol? : Member → Option Nat
  | .symbol i => some i
  | .group _ => none

/-- The symbols among the members of a group. -/
def Group.symbols (g : Group) : List Nat := g.members.filterMap Member.symbol?

/-- A group as far as its symbols are concerned. -/
def Group.roll (g : Group) : Text × List Nat := (g.name, g.symbols)

/-! ## Lists -/

theorem modify_idxOf {α β : Type} [BEq α] [LawfulBEq α] {names : List α} (distinct : names.Nodup)
    {a : α} (mem : a ∈ names) (f : α → β) (h : β → β) :
    (names.map f).modify (names.idxOf a) h =
      names.map fun b => if b == a then h (f b) else f b := by
  induction names with
  | nil => simp at mem
  | cons b rest ih =>
    obtain ⟨fresh, distinct⟩ := List.nodup_cons.mp distinct
    by_cases hb : b = a
    · subst hb
      have others : rest.map f = rest.map fun c => if c == b then h (f c) else f c := by
        refine List.map_congr_left fun c hc => ?_
        have ne : c ≠ b := fun same => fresh (same ▸ hc)
        simp [ne]
      simp [others]
    · have mem' : a ∈ rest := by simpa [Ne.symm hb] using mem
      simp [hb, ih distinct mem']

/-! ## Links and the roll of a group -/

/-- What a link does to the roll of the group that it leads to. -/
def GroupLink.enrol : GroupLink → Text × List Nat → Text × List Nat
  | .member symbol, (name, symbols) => (name, Outline.note symbols symbol)
  | _, roll => roll

theorem roll_insert_symbol (symbol : Nat) (g : Group) :
    (g.insert (.symbol symbol)).roll = (GroupLink.member symbol).enrol g.roll := by
  have listed : Member.symbol symbol ∈ g.members ↔ symbol ∈ g.symbols := by
    simp only [Group.symbols, List.mem_filterMap]
    refine ⟨fun h => ⟨_, h, rfl⟩, ?_⟩
    rintro ⟨m | m, h, hm⟩
    · cases hm
      exact h
    · cases hm
  by_cases h : Member.symbol symbol ∈ g.members <;>
    simp_all [Group.insert, Group.roll, Group.symbols, GroupLink.enrol, Outline.note,
      Member.symbol?]

theorem roll_insert_group (child : Nat) (g : Group) : (g.insert (.group child)).roll = g.roll := by
  unfold Group.insert
  split
  · rfl
  · simp [Group.roll, Group.symbols, Member.symbol?]

theorem modify_rolls {f : Group → Group} (hf : ∀ g, (f g).roll = g.roll) (groups : List Group)
    (i : Nat) : (groups.modify i f).map Group.roll = groups.map Group.roll := by
  rw [map_modify (h := id) hf, List.modify_id]

namespace Collection

theorem connect_rolls (c : Collection) (group : Nat) (link : GroupLink) (path : Text)
    (line : Nat) : (c.connect group link path line).groups.map Group.roll =
      (c.groups.map Group.roll).modify group link.enrol := by
  cases link with
  | parentOf child =>
    have same : GroupLink.enrol (.parentOf child) = id := rfl
    rw [connect, same, List.modify_id]
    obtain dropped | ⟨found, reported⟩ | ⟨-, -, granted⟩ := joinGroup_cases c child group path line
    · rw [dropped]
    · rw [reported]
    · rw [granted]
      exact (modify_rolls (roll_insert_group child) _ group).trans
        (modify_rolls (f := fun g => { g with parent := some group }) (fun _ => rfl) c.groups child)
  | member symbol => exact map_modify (roll_insert_symbol symbol) c.groups group
  | file file =>
    have same : GroupLink.enrol (.file file) = id := rfl
    rw [same, List.modify_id]
    refine modify_rolls (fun g => ?_) c.groups group
    split <;> rfl

theorem documentGroup_rolls (c : Collection) (group : Nat) (doc : Doc) :
    (c.documentGroup group doc).groups.map Group.roll = c.groups.map Group.roll := by
  unfold documentGroup modifyGroup
  rw [modify_rolls]
  exact fun _ => rfl

/-- The symbols that are known and the number of files. -/
def census (c : Collection) : List SymbolIdentity × Nat := (c.identities, c.files.length)

theorem census_of_ledger {c c' : Collection} (h : c'.ledger = c.ledger) : c'.census = c.census :=
  congrArg (fun l => (l.identities, l.files)) h

theorem connect_census (c : Collection) (group : Nat) (link : GroupLink) (path : Text)
    (line : Nat) : (c.connect group link path line).census = c.census :=
  census_of_ledger (connect_ledger c group link path line)

theorem enterGroup_census (c : Collection) (op : GroupCommand) (name title path : Text)
    (line : Nat) : (c.enterGroup op name title path line).1.census = c.census :=
  census_of_ledger (enterGroup_ledger c op name title path line)

theorem requestAll_census (groups : List Text) (c : Collection) (link : GroupLink)
    (path : Text) (line : Nat) : (c.requestAll groups link path line).census = c.census :=
  census_of_ledger (requestAll_ledger c groups link path line)

/-! ## Requests -/

theorem requestedSymbols_concat (group : Text) (requests : List WaitingLink) (w : WaitingLink) :
    (group, requestedSymbols group (requests ++ [w])) =
      if group == w.group then w.link.enrol (group, requestedSymbols group requests)
      else (group, requestedSymbols group requests) := by
  unfold requestedSymbols
  by_cases h : group = w.group
  · subst h
    cases hl : w.link <;>
      simp [hl, GroupLink.symbol?, GroupLink.enrol, Outline.eraseDups_concat]
  · have h' : ¬ w.group = group := fun same => h same.symm
    simp [h, h']

/-- The collection has defined `groups`, and every request met so far is either served, in order,
or waits for a group that is not defined. -/
structure Serves (c : Collection) (groups : List Text) (requests : List WaitingLink) : Prop where
  rolls : c.groups.map Group.roll = groups.map fun name => (name, requestedSymbols name requests)
  distinct : groups.Nodup
  waiting : c.waiting = requests.filter fun w => !groups.contains w.group

namespace Serves

variable {c : Collection} {groups : List Text} {requests : List WaitingLink}

theorem names (h : c.Serves groups requests) : c.groups.map Group.name = groups := by
  have first := congrArg (List.map Prod.fst) h.rolls
  simpa [Function.comp_def, Group.roll] using first

theorem length (h : c.Serves groups requests) : c.groups.length = groups.length := by
  rw [← h.names, List.length_map]

theorem groupIndex? (h : c.Serves groups requests) (name : Text) :
    c.groupIndex? name = if name ∈ groups then some (groups.idxOf name) else none := by
  have found : c.groupIndex? name = groups.idxOf? name := by
    rw [← h.names, List.idxOf?, List.findIdx?_map]
    rfl
  rw [found]
  split
  next mem => exact idxOf?_of_mem mem
  next absent => exact List.idxOf?_eq_none_iff.mpr absent

/-- Only groups and what waits count. -/
theorem congr (h : c.Serves groups requests) {c' : Collection}
    (rolls : c'.groups.map Group.roll = c.groups.map Group.roll)
    (waiting : c'.waiting = c.waiting) : c'.Serves groups requests :=
  ⟨rolls.trans h.rolls, h.distinct, waiting.trans h.waiting⟩

theorem request (h : c.Serves groups requests) (group : Text) (link : GroupLink) (path : Text)
    (line : Nat) :
    (c.request group link path line).Serves groups (requests ++ [⟨group, link, path, line⟩]) := by
  unfold Collection.request
  rw [h.groupIndex?]
  by_cases mem : group ∈ groups
  · refine ⟨?_, h.distinct, ?_⟩
    · simp only [mem, if_true, connect_rolls, h.rolls, requestedSymbols_concat]
      exact modify_idxOf h.distinct mem _ _
    · simp [mem, connect_waiting, h.waiting]
  · refine ⟨?_, h.distinct, ?_⟩
    · simp only [mem, if_false, h.rolls, requestedSymbols_concat]
      refine List.map_congr_left fun name hn => ?_
      have ne : name ≠ group := fun same => mem (same ▸ hn)
      simp [ne]
    · simp [mem, h.waiting]

theorem requestAll (h : c.Serves groups requests) (wanted : List Text) (link : GroupLink)
    (path : Text) (line : Nat) : (c.requestAll wanted link path line).Serves groups
      (requests ++ wanted.map fun group => ⟨group, link, path, line⟩) := by
  induction wanted generalizing c requests with
  | nil => simpa [Collection.requestAll] using h
  | cons group rest ih => simpa [Collection.requestAll] using ih (h.request group link path line)

/-! ## A group comes into being -/

theorem connectAll_rolls (ready : List WaitingLink) (c : Collection) (group : Nat) :
    (ready.foldl (fun c w => c.connect group w.link w.path w.line) c).groups.map Group.roll =
      (c.groups.map Group.roll).modify group fun roll =>
        ready.foldl (fun roll w => w.link.enrol roll) roll := by
  induction ready generalizing c with
  | nil => exact (List.modify_id group (c.groups.map Group.roll)).symm
  | cons w rest ih =>
    rw [List.foldl_cons, ih, connect_rolls, List.modify_modify_eq]
    rfl

theorem connectAll_waiting (ready : List WaitingLink) (c : Collection) (group : Nat) :
    (ready.foldl (fun c w => c.connect group w.link w.path w.line) c).waiting = c.waiting := by
  induction ready generalizing c with
  | nil => rfl
  | cons w rest ih => rw [List.foldl_cons, ih, connect_waiting]

/-- Serving everything that has asked for a group gives the roll that it would have had. -/
theorem enrol_all (name : Text) (requests : List WaitingLink) :
    (requests.filter fun w => w.group == name).foldl (fun roll w => w.link.enrol roll) (name, []) =
      (name, requestedSymbols name requests) := by
  induction requests using List.reverseRecOn with
  | nil => rfl
  | append_singleton before w ih =>
    rw [requestedSymbols_concat, ← ih, List.filter_append, List.foldl_append]
    by_cases h : name = w.group
    · simp [h]
    · have h' : ¬ w.group = name := fun same => h same.symm
      simp [h, h']

theorem define (h : c.Serves groups requests) {name : Text} (new : name ∉ groups) (title : Text) :
    (serveWaiting { c with groups := c.groups ++ [{ id := c.groups.length, name, title }] } name
      c.groups.length).Serves (groups ++ [name]) requests := by
  -- What waits for the new group is all that has ever asked for it.
  have ready : (c.waiting.filter fun w => w.group == name) =
      requests.filter fun w => w.group == name := by
    rw [h.waiting, List.filter_filter]
    refine List.filter_congr fun w _ => ?_
    by_cases same : w.group = name <;> simp [same, new]
  unfold serveWaiting
  refine ⟨?_, ?_, ?_⟩
  · rw [connectAll_rolls, ready]
    have fresh : (c.groups ++ [({ id := c.groups.length, name, title } : Group)]).map Group.roll =
        c.groups.map Group.roll ++ [(name, [])] := by simp [Group.roll, Group.symbols]
    rw [fresh, ← List.length_map (f := Group.roll), List.modify_eq_set_getElem?]
    simp [enrol_all, h.rolls]
  · simpa [List.nodup_append, h.distinct] using fun b hb (same : b = name) => new (same ▸ hb)
  · rw [connectAll_waiting]
    simp only [h.waiting, List.filter_filter]
    refine List.filter_congr fun w _ => ?_
    by_cases same : w.group = name <;> simp [same]

/-- A group that is defined is linked at once. -/
theorem connect (h : c.Serves groups requests) {group : Text} (mem : group ∈ groups)
    (link : GroupLink) (path : Text) (line : Nat) :
    (c.connect (groups.idxOf group) link path line).Serves groups
      (requests ++ [⟨group, link, path, line⟩]) := by
  have served := h.request group link path line
  rwa [Collection.request, h.groupIndex?, if_pos mem] at served

theorem enterGroup (h : c.Serves groups requests) (op : GroupCommand) (name title path : Text)
    (line : Nat) :
    (c.enterGroup op name title path line).1.Serves
        (if op = .define then Outline.note groups name else groups) requests ∧
      (c.enterGroup op name title path line).2 =
        if op = .define ∨ name ∈ groups then some (groups.idxOf name) else none := by
  unfold Collection.enterGroup
  rw [h.groupIndex?]
  by_cases mem : name ∈ groups
  · have kept : (if op = .define then Outline.note groups name else groups) = groups := by
      simp [Outline.note, mem]
    simp only [mem, if_true, or_true, kept, and_true]
    refine h.congr (modify_rolls (fun g => ?_) c.groups _) rfl
    split <;> rfl
  · cases op with
    | extend =>
      simp only [mem, reduceCtorEq, if_false, or_false, and_true]
      exact h.congr rfl rfl
    | define =>
      have last : groups.idxOf name = c.groups.length := by
        rw [h.length, List.idxOf_eq_length mem]
      simpa [mem, Outline.note, last] using And.intro (h.define mem title) h.length

end Serves

/-- A declaration finds the symbol where it was declared first, or adds it at the end. -/
theorem record_number (c : Collection) (aligned : c.identities.length = c.symbols.length)
    (decl : Declaration) (doc : Option Doc) (file : Nat) (path : Text) (line : Nat) :
    (c.record decl doc file path line).2 = c.identities.idxOf decl.identity ∧
      (c.record decl doc file path line).1.census =
        (Outline.note c.identities decl.identity, c.files.length) := by
  unfold record
  split
  next index found =>
    obtain ⟨hi, at_, first⟩ := List.idxOf?_eq_some_iff.mp found
    have mem : decl.identity ∈ c.identities := at_ ▸ List.getElem_mem hi
    refine ⟨?_, ?_⟩
    · exact (List.findIdx?_eq_some_iff_findIdx_eq.mp found).2.symm
    · dsimp only
      split <;> simp [census, Outline.note, mem, report]
  next new =>
    have absent : decl.identity ∉ c.identities := List.idxOf?_eq_none_iff.mp new
    exact ⟨by rw [List.idxOf_eq_length absent, aligned],
      by simp [census, Outline.note, absent]⟩

theorem Serves.record {c : Collection} {groups : List Text} {requests : List WaitingLink}
    (h : c.Serves groups requests) (decl : Declaration) (doc : Option Doc) (file : Nat)
    (path : Text) (line : Nat) :
    (c.record decl doc file path line).1.Serves groups requests := by
  unfold Collection.record
  split
  · dsimp only
    split <;> exact h.congr rfl rfl
  · exact h.congr rfl rfl

/-- What naming a group does after the group has been entered. -/
def placeGroup (c : Collection) (current : Option Nat)
    (op : GroupCommand) (group : Nat) (parents : List Text) (doc : Option Doc) (path : Text)
    (line : Nat) : Collection :=
  let c := (doc.map (c.documentGroup group)).getD c
  if !parents.isEmpty then c.requestAll parents (.parentOf group) path line
  else match op, current with
    | .define, some scope => if scope = group then c else c.joinGroup group scope path line
    | _, _ => c

end Collection

end DocComment
