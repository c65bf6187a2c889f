import DocComment.Corpus.Resolved
import DocComment.Proofs.Corpus.Numbering
import DocComment.Proofs.Corpus.Serving

/-!
# Who is in a group

At every point of a run the groups hold what the requests met so far have put in them. In the
finished model the symbols of a group are therefore those that the corpus asks to be put there, and
what is left over are the requests for groups that no file defines.
-/

set_option autoImplicit false

namespace DocComment

/-! ## Events -/

/-- The position of a group that is defined. -/
def Outline.number (o : Outline) : Option Text → Option Nat := Option.map o.groups.idxOf

namespace Collection.Progress

theorem nameGroup_eq (path : Text) (p : Progress) (op : GroupCommand) (name title : Text)
    (parents : List Text) (doc : Option Doc) (line : Nat) :
    p.nameGroup path op name title parents doc line =
      let entered := p.collection.enterGroup op name title path line
      ⟨match entered.2 with
        | none => entered.1
        | some group => entered.1.placeGroup p.current op group parents doc path line,
        p.scopes, some entered.2⟩ := rfl

/-- A run has met what the outline says, and nothing that was requested is lost. -/
structure Follows (p : Progress) (files : Nat) (o : Outline) (requests : List WaitingLink) :
    Prop where
  serves : p.collection.Serves o.groups requests
  census : p.collection.census = (o.symbols, files)
  scopes : p.scopes = o.scopes.map o.number
  lastNamed : p.lastNamed = o.lastNamed.map o.number
  scopesDefined : ∀ name, some name ∈ o.scopes → name ∈ o.groups
  lastDefined : ∀ name, o.lastNamed = some (some name) → name ∈ o.groups

namespace Follows

variable {p : Progress} {files : Nat} {o : Outline} {requests : List WaitingLink}

theorem current (h : p.Follows files o requests) : p.current = o.number o.current := by
  rw [Progress.current, h.scopes, Outline.current]
  cases o.scopes with
  | nil => rfl
  | cons scope rest => rfl

theorem currentDefined (h : p.Follows files o requests) {name : Text} (hc : o.current = some name) :
    name ∈ o.groups := by
  refine h.scopesDefined name ?_
  cases hs : o.scopes with
  | nil => simp [Outline.current, hs] at hc
  | cons scope rest =>
    have : scope = some name := by simpa [Outline.current, hs] using hc
    simp [this]

/-- What is put into the groups that it names, or else into that of the scope. -/
theorem wanted (h : p.Follows files o requests) {c : Collection}
    (served : c.Serves o.groups requests) (named : List Text) (link : GroupLink) (path : Text)
    (line : Nat) :
    (if !named.isEmpty then c.requestAll named link path line
      else match p.current with
        | some scope => c.connect scope link path line
        | none => c).Serves o.groups
      (requests ++ (o.wanted named).map fun group => ⟨group, link, path, line⟩) := by
  cases named with
  | cons name rest => simpa [Outline.wanted] using served.requestAll (name :: rest) link path line
  | nil =>
    simp only [List.isEmpty_nil, Bool.not_true, Bool.false_eq_true, if_false, Outline.wanted,
      if_true, h.current]
    cases hc : o.current with
    | none => simpa [Outline.number] using served
    | some name => simpa [Outline.number] using served.connect (h.currentDefined hc) link path line

theorem wanted_census (p : Progress) (c : Collection) (named : List Text) (link : GroupLink)
    (path : Text) (line : Nat) :
    (if !named.isEmpty then c.requestAll named link path line
      else match p.current with
        | some scope => c.connect scope link path line
        | none => c).census = c.census := by
  split
  · exact requestAll_census named c link path line
  · split
    · exact connect_census c _ link path line
    · rfl

/-- Only the collection has changed, by more requests being served. -/
theorem serve (h : p.Follows files o requests) {c : Collection} {served : List WaitingLink}
    (serves : c.Serves o.groups served) (census : c.census = (o.symbols, files)) :
    Follows { p with collection := c } files o served :=
  { h with serves, census }

theorem openScope (h : p.Follows files o requests) (group : Option Text) :
    (p.openScope group).Follows files (o.next (.openScope group)) requests := by
  refine ⟨h.serves, h.census, ?_, h.lastNamed, ?_, h.lastDefined⟩
  · have opened : (p.openScope group).scopes = o.number (o.scope group) :: p.scopes := by
      cases group with
      | some name =>
        rw [Progress.openScope, h.serves.groupIndex?, Outline.scope]
        dsimp only
        split <;> rfl
      | none =>
        rw [Progress.openScope, h.lastNamed, h.current, Outline.scope]
        cases o.lastNamed <;> rfl
    rw [opened, h.scopes, Outline.next, List.map_cons]
    rfl
  · intro name mem
    rcases List.mem_cons.mp mem with here | old
    · cases group with
      | some named =>
        have inside : named ∈ o.groups ∧ named = name := by simpa [Outline.scope] using here.symm
        exact inside.2 ▸ inside.1
      | none =>
        cases hl : o.lastNamed with
        | none => exact h.currentDefined (by simpa [Outline.scope, hl] using here.symm)
        | some last =>
          refine h.lastDefined name ?_
          rw [hl]
          simpa [Outline.scope, hl] using here.symm
    · exact h.scopesDefined name old

theorem closeScope (h : p.Follows files o requests) (path : Text) (line : Nat) :
    (p.closeScope path line).Follows files (o.next (.closeScope line)) requests := by
  unfold Progress.closeScope
  have scopes := h.scopes
  cases hs : o.scopes with
  | nil =>
    rw [hs] at scopes
    rw [scopes]
    refine ⟨h.serves.congr rfl rfl, h.census, ?_, h.lastNamed, ?_, h.lastDefined⟩ <;>
      simp [Outline.next, hs]
  | cons scope rest =>
    rw [hs] at scopes
    rw [scopes]
    refine ⟨h.serves, h.census, ?_, h.lastNamed, fun name mem => ?_, h.lastDefined⟩
    · simp only [Outline.next, hs]
      rfl
    · refine h.scopesDefined name ?_
      rw [hs]
      simp only [Outline.next, hs] at mem
      exact List.mem_cons_of_mem _ mem

theorem placeFile (h : p.Follows files o requests) (file : Nat) (path : Text) (named : List Text) :
    (p.placeFile file path named).Follows files (o.next (.file named))
      (requests ++ o.requests file path (.file named)) := by
  exact h.serve (h.wanted h.serves named (.file file) path 0)
    ((wanted_census p p.collection named (.file file) path 0).trans h.census)

theorem declare (h : p.Follows files o requests) (within : p.Within) (file : Nat) (path : Text)
    (decl : Declaration) (doc : Option Doc) (named : List Text) (line : Nat) :
    (p.declare file path decl doc named line).Follows files (o.next (.declare decl doc named line))
      (requests ++ o.requests file path (.declare decl doc named line)) := by
  obtain ⟨number, census⟩ :=
    record_number p.collection within.coherent.identities decl doc file path line
  have recorded := h.serves.record decl doc file path line
  unfold Progress.declare
  generalize p.collection.record decl doc file path line = result at number census recorded ⊢
  obtain ⟨c, symbol⟩ := result
  dsimp only at number census recorded ⊢
  have known : p.collection.identities = o.symbols ∧ p.collection.files.length = files := by
    simpa [Collection.census] using h.census
  rw [known.1] at number census
  rw [known.2] at census
  subst number
  have placed : ∀ {c' : Collection} {requests' : List WaitingLink},
      c'.Serves o.groups (requests ++ requests') → c'.census = c.census →
      Follows { p with collection := c' } files (o.next (.declare decl doc named line))
        (requests ++ requests') := fun served same =>
    { h with serves := served, census := same.trans census }
  cases hd : decl.owner with
  | none =>
    have served := h.wanted recorded named (.member (o.symbols.idxOf decl.identity)) path line
    have follows := placed served (wanted_census p c named _ path line)
    cases hc : p.current <;> simpa [Outline.requests, hd, hc, Collection.connect] using follows
  | some owner =>
    cases named with
    | nil =>
      have idle : o.requests file path (.declare decl doc [] line) = [] := by
        simp [Outline.requests, hd]
      rw [idle]
      exact placed (by simpa using recorded) rfl
    | cons name rest =>
      have served := recorded.requestAll (name :: rest)
        (.member (o.symbols.idxOf decl.identity)) path line
      simpa [Outline.requests, Outline.wanted] using
        placed served (requestAll_census (name :: rest) c _ path line)

/-- The positions of groups that are defined stay when one more is. -/
theorem number_next {o : Outline} (e : Event) {group : Option Text}
    (defined : ∀ name, group = some name → name ∈ o.groups) :
    (o.next e).number group = o.number group := by
  cases group with
  | none => rfl
  | some name =>
    have mem := defined name rfl
    unfold Outline.number Outline.next
    cases e.defined? with
    | none => rfl
    | some new =>
      by_cases old : new ∈ o.groups
      · simp [Outline.note, old]
      · simp [Outline.note, old, List.idxOf_append_of_mem mem]

theorem mem_next {o : Outline} (e : Event) {name : Text} (mem : name ∈ o.groups) :
    name ∈ (o.next e).groups := by
  unfold Outline.next
  cases e.defined? with
  | none => exact mem
  | some new =>
    by_cases old : new ∈ o.groups <;> simp [Outline.note, old, mem]

theorem placeGroup {c : Collection} {groups : List Text} (served : c.Serves groups requests)
    (defined : ∀ scope, o.current = some scope → scope ∈ groups) (op : GroupCommand) (name : Text)
    (parents : List Text) (doc : Option Doc) (path : Text) (line : Nat) :
    (c.placeGroup (o.current.map groups.idxOf) op (groups.idxOf name) parents doc path line).Serves
        groups (requests ++ (o.wantedParents op name parents).map fun parent =>
          ⟨parent, .parentOf (groups.idxOf name), path, line⟩) ∧
      (c.placeGroup (o.current.map groups.idxOf) op (groups.idxOf name) parents doc path
        line).census = c.census := by
  have documented :
      ((doc.map (c.documentGroup (groups.idxOf name))).getD c).Serves groups requests ∧
      ((doc.map (c.documentGroup (groups.idxOf name))).getD c).census = c.census := by
    cases doc with
    | none => exact ⟨served, rfl⟩
    | some doc =>
      exact ⟨served.congr (documentGroup_rolls c _ doc) rfl, rfl⟩
  unfold Collection.placeGroup
  dsimp only
  generalize (doc.map (c.documentGroup (groups.idxOf name))).getD c = c' at documented ⊢
  obtain ⟨served, same⟩ := documented
  rw [← same]
  cases parents with
  | cons parent rest =>
    refine ⟨?_, requestAll_census (parent :: rest) c' _ path line⟩
    simpa [Outline.wantedParents] using
      served.requestAll (parent :: rest) (.parentOf (groups.idxOf name)) path line
  | nil =>
    cases op with
    | extend => simpa [Outline.wantedParents] using served
    | define =>
      cases hc : o.current with
      | none => simpa [Outline.wantedParents, hc] using served
      | some scope =>
        have inside := defined scope hc
        by_cases itself : scope = name
        · simpa [Outline.wantedParents, hc, itself] using served
        · have apart : groups.idxOf scope ≠ groups.idxOf name :=
            fun same => itself ((List.idxOf_inj inside).mp same)
          have joined := served.connect inside (.parentOf (groups.idxOf name)) path line
          have kept := connect_census c' (groups.idxOf scope)
            (.parentOf (groups.idxOf name)) path line
          simpa [Outline.wantedParents, hc, itself, apart, Collection.connect] using
            And.intro joined kept

theorem nameGroup (h : p.Follows files o requests) (file : Nat) (path : Text) (op : GroupCommand)
    (name title : Text) (parents : List Text) (doc : Option Doc) (line : Nat) :
    (p.nameGroup path op name title parents doc line).Follows files
      (o.next (.group op name title parents doc line))
      (requests ++ o.requests file path (.group op name title parents doc line)) := by
  obtain ⟨entered, opened⟩ := h.serves.enterGroup op name title path line
  have census := enterGroup_census p.collection op name title path line
  rw [nameGroup_eq]
  generalize p.collection.enterGroup op name title path line = result at entered opened census ⊢
  obtain ⟨c, group?⟩ := result
  dsimp only at entered opened census ⊢
  generalize he : Event.group op name title parents doc line = e
  have after : (o.next e).groups =
      if op = .define then Outline.note o.groups name else o.groups := by
    subst he
    cases op <;> rfl
  rw [← after] at entered
  have position : (o.next e).groups.idxOf name = o.groups.idxOf name := by
    rw [after]
    by_cases mem : name ∈ o.groups <;> cases op <;> simp [mem, Outline.note, List.idxOf_append]
  have numbered : group? = (o.next e).number (o.opened? op name) := by
    rw [opened, Outline.opened?, Outline.number]
    split
    · rw [Option.map_some, position]
    · rfl
  have placed : ∀ {c' : Collection} {requests' : List WaitingLink},
      c'.Serves (o.next e).groups requests' → c'.census = c.census →
      Follows ⟨c', p.scopes, some group?⟩ files (o.next e) requests' := by
    intro c' requests' served same
    refine ⟨served, ?_, ?_, ?_, fun scope mem => ?_, fun scope last => ?_⟩
    · rw [same, census, h.census, ← he]
      rfl
    · have scopes : (o.next e).scopes = o.scopes := by rw [← he]; rfl
      rw [h.scopes, scopes]
      exact List.map_congr_left fun scope mem =>
        (number_next e fun name' same => h.scopesDefined name' (same ▸ mem)).symm
    · rw [numbered, ← he]
      rfl
    · rw [← he] at mem
      exact mem_next e (h.scopesDefined scope mem)
    · have known : o.opened? op name = some scope := by simpa [← he, Outline.next] using last
      rw [after]
      by_cases mem : name ∈ o.groups <;> cases op <;> simp_all [Outline.opened?, Outline.note]
  by_cases isOpen : op = .define ∨ name ∈ o.groups
  · have here : p.current = o.current.map (o.next e).groups.idxOf := by
      rw [h.current]
      exact (number_next e fun scope => h.currentDefined).symm
    obtain ⟨served, same⟩ := placeGroup entered
      (fun scope current => mem_next e (h.currentDefined current)) op name parents doc path line
    rw [← here, position] at served same
    rw [if_pos isOpen] at opened
    subst he
    simpa [opened, Outline.requests, Outline.opened?, isOpen] using placed served same
  · rw [if_neg isOpen] at opened
    subst he
    simpa [opened, Outline.requests, Outline.opened?, isOpen] using placed entered rfl

/-- An event of the run does what the outline says. -/
theorem event (h : p.Follows files o requests) (within : p.Within) (file : Nat) (path : Text)
    (e : Event) : (p.event file path e).Follows files (o.next e)
      (requests ++ o.requests file path e) := by
  cases e with
  | group op name title parents doc line =>
    exact h.nameGroup file path op name title parents doc line
  | openScope group => simpa [Outline.requests, Progress.event] using h.openScope group
  | closeScope line => simpa [Outline.requests, Progress.event] using h.closeScope path line
  | file named => exact h.placeFile file path named
  | declare decl doc named line => exact h.declare within file path decl doc named line

theorem events (h : p.Follows files o requests) (within : p.Within) (file : Nat) (path : Text)
    (known : file < p.collection.files.length) (es : List Event) :
    (es.foldl (Progress.event file path) p).Follows files (es.foldl Outline.next o)
      (requests ++ o.requestsAll file path es) := by
  induction es generalizing p o requests with
  | nil => simpa [Outline.requestsAll] using h
  | cons e rest ih =>
    obtain ⟨changes, within'⟩ := event_changes file path p e within known
    have done := ih (h.event within file path e) within' (known.trans_le changes.grows.files)
    simpa [Outline.requestsAll] using done

end Follows

end Collection.Progress

/-! ## Files -/

namespace Collection

open Progress

/-- The collection and the outline of the files so far agree. -/
structure Agrees (c : Collection) (files : Nat) (o : Outline) (requests : List WaitingLink) :
    Prop where
  coherent : c.Coherent
  serves : c.Serves o.groups requests
  census : c.census = (o.symbols, files)

/-- A file starts with what the files before it have led to. -/
theorem Agrees.started {c : Collection} {files : Nat} {o : Outline} {requests : List WaitingLink}
    (h : c.Agrees files o requests) (next : Contribution) :
    (c.start next).Within ∧ (c.start next).Follows (files + 1) o.enterFile requests := by
  obtain ⟨known, rfl⟩ : c.identities = o.symbols ∧ c.files.length = files := by
    simpa [Collection.census] using h.census
  refine ⟨⟨(start_changes c next).coherent h.coherent, by simp [start], by simp [start]⟩, ?_⟩
  exact
    { serves := h.serves.congr rfl rfl
      census := by simp [Collection.census, start, Outline.enterFile, known]
      scopes := rfl
      lastNamed := rfl
      scopesDefined := by simp [Outline.enterFile]
      lastDefined := by simp [Outline.enterFile] }

theorem Agrees.add {c : Collection} {files : Nat} {o : Outline} {requests : List WaitingLink}
    (h : c.Agrees files o requests) (next : Contribution) :
    (c.add next).Agrees (files + 1) (o.afterFile next)
      (requests ++ o.enterFile.requestsAll files next.path next.events) := by
  obtain ⟨within, started⟩ := h.started next
  obtain rfl : c.files.length = files := congrArg Prod.snd h.census
  have followed :=
    started.events within c.files.length next.path (by simp [start]) next.events
  refine ⟨(add_changes c next h.coherent).coherent h.coherent, ?_, ?_⟩
  · unfold Collection.add
    dsimp only
    split
    · exact followed.serves
    · exact followed.serves.congr rfl rfl
  · unfold Collection.add
    dsimp only
    split <;> exact followed.census

theorem Agrees.addAll {c : Collection} {files : Nat} {o : Outline} {requests : List WaitingLink}
    (h : c.Agrees files o requests) (contributions : List Contribution) :
    ∃ files', (contributions.foldl Collection.add c).Agrees files'
      (contributions.foldl Outline.afterFile o)
      (requests ++ Outline.requestsFrom files o contributions) := by
  induction contributions generalizing c files o requests with
  | nil => exact ⟨files, by simpa [Outline.requestsFrom] using h⟩
  | cons next rest ih =>
    obtain ⟨files', done⟩ := ih (h.add next)
    exact ⟨files', by simpa [Outline.requestsFrom] using done⟩

theorem empty_agrees : Agrees {} 0 {} [] :=
  ⟨empty_coherent, ⟨rfl, List.nodup_nil, rfl⟩, rfl⟩

theorem ofContributions_serves (contributions : List Contribution) :
    (ofContributions contributions).Serves (definedGroups contributions)
      (requestsOf contributions) := by
  obtain ⟨_, done⟩ := empty_agrees.addAll contributions
  rw [← Outline.ofContributions_groups]
  simpa [requestsOf, ofContributions] using done.serves

theorem ofContributions_identities (contributions : List Contribution) :
    (ofContributions contributions).identities = declaredSymbols contributions := by
  obtain ⟨_, done⟩ := empty_agrees.addAll contributions
  rw [← Outline.ofContributions_symbols]
  exact congrArg Prod.fst done.census

/-! ## Symbols and their groups -/

def groupOf (c : Collection) (symbol : Nat) : Option Nat := c.symbols[symbol]?.bind Symbol.group

def symbolsAt (c : Collection) (group : Nat) : List Nat :=
  ((c.groups.map Group.roll)[group]?.map Prod.snd).getD []

/-- A symbol has a group exactly if it is in one, and then it is in that group. -/
structure Housed (c : Collection) : Prop where
  listed : ∀ symbol group, c.groupOf symbol = some group → symbol ∈ c.symbolsAt group
  placed : ∀ symbol group, symbol ∈ c.symbolsAt group → (c.groupOf symbol).isSome

theorem Housed.congr {c c' : Collection} (h : c.Housed) (groupOf : c'.groupOf = c.groupOf)
    (symbolsAt : c'.symbolsAt = c.symbolsAt) : c'.Housed := by
  refine ⟨?_, ?_⟩
  · rw [groupOf, symbolsAt]
    exact h.listed
  · rw [groupOf, symbolsAt]
    exact h.placed

theorem symbolsAt_congr {c c' : Collection}
    (h : c'.groups.map Group.roll = c.groups.map Group.roll) : c'.symbolsAt = c.symbolsAt := by
  funext group
  rw [symbolsAt, symbolsAt, h]

theorem groupOf_append {c c' : Collection} {s : Symbol} (free : s.group = none)
    (h : c'.symbols = c.symbols ++ [s]) : c'.groupOf = c.groupOf := by
  funext symbol
  unfold groupOf
  rw [h]
  exact bind_getElem?_append c.symbols free symbol

theorem symbolsAt_append {c c' : Collection} {g : Group} (bare : g.symbols = [])
    (h : c'.groups = c.groups ++ [g]) : c'.symbolsAt = c.symbolsAt := by
  funext group
  unfold symbolsAt
  rw [h, List.map_append]
  exact getD_getElem?_append (c.groups.map Group.roll) bare group

theorem groupOf_modify {c c' : Collection} {f : Symbol → Symbol} {i : Nat}
    (kept : ∀ s, (f s).group = s.group) (h : c'.symbols = c.symbols.modify i f) :
    c'.groupOf = c.groupOf := by
  funext symbol
  unfold groupOf
  rw [h]
  exact bind_getElem?_modify c.symbols kept i symbol

theorem symbolsAt_joinSymbol {c : Collection} {group : Nat} (known : group < c.groups.length)
    (symbol other : Nat) : (c.joinSymbol group symbol).symbolsAt other =
      if other = group then Outline.note (c.symbolsAt group) symbol else c.symbolsAt other := by
  have rolls := connect_rolls c group (.member symbol) [] 0
  rw [connect] at rolls
  unfold symbolsAt
  rw [rolls, List.getElem?_modify]
  by_cases here : other = group
  · subst here
    simp [known, GroupLink.enrol]
  · simp [here, Ne.symm here]

theorem groupOf_joinSymbol {c : Collection} {symbol : Nat} (known : symbol < c.symbols.length)
    (group other : Nat) : (c.joinSymbol group symbol).groupOf other =
      if other = symbol then (c.groupOf symbol).or (some group) else c.groupOf other := by
  unfold groupOf joinSymbol
  rw [List.getElem?_modify]
  by_cases here : other = symbol
  · subst here
    simp [known]
  · simp [here, Ne.symm here]

theorem mem_note {α : Type} [BEq α] [LawfulBEq α] {l : List α} {a b : α} :
    b ∈ Outline.note l a ↔ b ∈ l ∨ b = a := by
  by_cases mem : a ∈ l
  · simpa [Outline.note, mem] using fun same : b = a => same ▸ mem
  · simp [Outline.note, mem]

/-- A thing has a group exactly if a group lists it, and then that group lists it. -/
structure Agreement (groupOf : Nat → Option Nat) (listedBy : Nat → List Nat) : Prop where
  listed : ∀ x g, groupOf x = some g → x ∈ listedBy g
  placed : ∀ x g, x ∈ listedBy g → (groupOf x).isSome

/-- One more thing is listed by a group, which becomes its group unless it has one. -/
theorem Agreement.join {groupOf groupOf' : Nat → Option Nat} {listedBy listedBy' : Nat → List Nat}
    (h : Agreement groupOf listedBy) {group x : Nat}
    (newGroup : ∀ y, groupOf' y = if y = x then (groupOf x).or (some group) else groupOf y)
    (newList : ∀ g, listedBy' g =
      if g = group then Outline.note (listedBy group) x else listedBy g) :
    Agreement groupOf' listedBy' := by
  refine ⟨fun y g hy => ?_, fun y g hg => ?_⟩
  · rw [newGroup] at hy
    rw [newList]
    by_cases itself : y = x
    · subst itself
      rw [if_pos rfl] at hy
      split
      · exact mem_note.mpr (.inr rfl)
      next other =>
        cases held : groupOf y with
        | none => exact absurd (by simpa [held] using hy.symm) other
        | some kept =>
          obtain rfl : kept = g := by simpa [held] using hy
          exact h.listed y kept held
    · rw [if_neg itself] at hy
      have listed := h.listed y g hy
      split
      next same => exact mem_note.mpr (.inl (same ▸ listed))
      next => exact listed
  · rw [newList] at hg
    rw [newGroup]
    by_cases itself : y = x
    · rw [if_pos itself]
      cases groupOf x <;> rfl
    · rw [if_neg itself]
      split at hg
      · exact h.placed y group ((mem_note.mp hg).resolve_right itself)
      · exact h.placed y g hg

theorem Housed.joinSymbol {c : Collection} (h : c.Housed) {group symbol : Nat}
    (knownGroup : group < c.groups.length) (knownSymbol : symbol < c.symbols.length) :
    (c.joinSymbol group symbol).Housed := by
  have joined : Agreement (c.joinSymbol group symbol).groupOf
      (c.joinSymbol group symbol).symbolsAt :=
    Agreement.join ⟨h.listed, h.placed⟩ (groupOf_joinSymbol knownSymbol group)
      (symbolsAt_joinSymbol knownGroup symbol)
  exact ⟨joined.listed, joined.placed⟩

theorem Change.housed {c c' : Collection} (step : Change c c') (h : c.Housed) : c'.Housed := by
  cases step with
  | group name title new => exact h.congr rfl (symbolsAt_append rfl rfl)
  | retitle group title =>
    refine h.congr rfl (symbolsAt_congr (modify_rolls (fun g => ?_) c.groups group))
    split <;> rfl
  | document group doc => exact h.congr rfl (symbolsAt_congr (documentGroup_rolls c group doc))
  | declare decl doc file _ _ => exact h.congr (groupOf_append rfl rfl) rfl
  | redeclare index file doc _ =>
    exact h.congr (groupOf_modify (f := Collection.redeclare file doc) (fun _ => rfl) rfl) rfl
  | connect group link path line known within =>
    cases link with
    | member symbol => exact h.joinSymbol known within
    | parentOf child =>
      have rolls := connect_rolls c group (.parentOf child) path line
      refine h.congr ?_ (symbolsAt_congr (rolls.trans (List.modify_id _ _)))
      rw [Collection.connect]
      obtain same | ⟨found, same⟩ | ⟨-, -, same⟩ := joinGroup_cases c child group path line <;>
        rw [same]
      · rfl
      · rfl
    | file file =>
      have rolls := connect_rolls c group (.file file) path line
      exact h.congr rfl (symbolsAt_congr (rolls.trans (List.modify_id _ _)))
  | _ => exact h.congr rfl rfl

theorem Changes.housed {c c' : Collection} (h : Changes c c') (hc : c.Housed) : c'.Housed := by
  induction h with
  | refl => exact hc
  | tail _ step ih => exact step.housed ih

theorem ofContributions_housed (contributions : List Contribution) :
    (ofContributions contributions).Housed :=
  (ofContributions_changes contributions).housed ⟨by simp [groupOf], by simp [symbolsAt]⟩

/-! ## Symbols and their declarations -/

/-- Every symbol is of the kind and has the name that it is known by. -/
def Named (c : Collection) : Prop :=
  c.symbols.map (fun s => (s.kind, s.name)) = c.identities.map fun d => (d.kind, d.name)

theorem Change.named {c c' : Collection} (step : Change c c') (h : c.Named) : c'.Named := by
  have kept {f : Symbol → Symbol} (hf : ∀ s, ((f s).kind, (f s).name) = (s.kind, s.name))
      (i : Nat) : (c.symbols.modify i f).map (fun s => (s.kind, s.name)) =
        c.symbols.map fun s => (s.kind, s.name) := by
    rw [map_modify (h := id) hf, List.modify_id]
  cases step with
  | declare decl doc file _ _ =>
    unfold Named at *
    simp [h, Declaration.identity]
  | redeclare index file doc _ =>
    exact (kept (f := Collection.redeclare file doc) (fun _ => rfl) index).trans h
  | connect group link path line _ _ =>
    cases link with
    | member symbol =>
      exact (kept (f := fun s => { s with group := s.group.or (some group) }) (fun _ => rfl)
        symbol).trans h
    | parentOf child =>
      rw [Collection.connect]
      obtain same | ⟨found, same⟩ | ⟨-, -, same⟩ := joinGroup_cases c child group path line <;>
        rw [same] <;> exact h
    | file file => exact h
  | _ => exact h

theorem Changes.named {c c' : Collection} (h : Changes c c') (hc : c.Named) : c'.Named := by
  induction h with
  | refl => exact hc
  | tail _ step ih => exact step.named ih

theorem ofContributions_named (contributions : List Contribution) :
    (ofContributions contributions).Named :=
  (ofContributions_changes contributions).named rfl

/-! ## The finished model -/

theorem toModel_rolls {options : Options} (shown : options.hideUndocumented = false)
    (c : Collection) : (c.toModel options).groups.map Group.roll = c.groups.map Group.roll := by
  simp only [toModel, shown, Bool.false_eq_true, if_false, List.map_map]
  exact List.map_congr_left fun g _ => rfl

/-- Finding the owners of the symbols leaves everything else of them as it is. -/
theorem withOwners_map {α : Type} (view : Symbol → α)
    (kept : ∀ s owner, view { s with owner } = view s) {c : Collection} (hc : c.Coherent) :
    c.withOwners.map view = c.symbols.map view := by
  have aligned := hc.identities
  unfold withOwners
  generalize owner? c.symbols = owner
  generalize c.symbols = symbols at aligned ⊢
  generalize c.identities = identities at aligned ⊢
  induction symbols generalizing identities with
  | nil => simp
  | cons s rest ih =>
    cases identities with
    | nil => simp at aligned
    | cons i others => simpa [kept] using ih others (by simpa using aligned)

end Collection

open Collection

/-- Groups have exactly the symbols that are asked to be put in them, each where it is asked for
first and whether or not the group is defined by then. A symbol has a group exactly if it is in
one, and then it is in that group. What is reported in the end are the requests for groups that
no file defines. -/
theorem groups_hold_requests (options : Options) (contributions : List Contribution)
    (shown : options.hideUndocumented = false) :
    let m := Model.ofContributions options contributions
    let defined := definedGroups contributions
    let requests := requestsOf contributions
    m.groups.map Group.roll = defined.map (fun name => (name, requestedSymbols name requests)) ∧
      m.symbols.map (fun s => (s.kind, s.name)) =
        (declaredSymbols contributions).map (fun d => (d.kind, d.name)) ∧
      (∀ i s, m.symbols[i]? = some s →
        (s.group.isSome ↔ ∃ g ∈ m.groups, i ∈ g.symbols) ∧
        ∀ j, s.group = some j → ∃ g, m.groups[j]? = some g ∧ i ∈ g.symbols) ∧
      m.diagnostics = (Collection.ofContributions contributions).diagnostics ++
        (requests.filter fun w => !defined.contains w.group).map Collection.unlinked := by
  intro m defined requests
  have serves := ofContributions_serves contributions
  have coherent := (ofContributions_changes contributions).coherent empty_coherent
  have housed := ofContributions_housed contributions
  have rolls : m.groups.map Group.roll = (ofContributions contributions).groups.map Group.roll :=
    toModel_rolls shown _
  have grouped := withOwners_map Symbol.group (fun _ _ => rfl) coherent
  have named := withOwners_map (fun s => (s.kind, s.name)) (fun _ _ => rfl) coherent
  have symbolsAt (j : Nat) : (ofContributions contributions).symbolsAt j =
      ((m.groups[j]?).map Group.symbols).getD [] := by
    rw [Collection.symbolsAt, ← rolls, List.getElem?_map, Option.map_map]
    rfl
  refine ⟨rolls.trans serves.rolls, ?_, ?_, ?_⟩
  · rw [← ofContributions_identities]
    exact named.trans (ofContributions_named contributions)
  · intro i s hs
    have group : (ofContributions contributions).groupOf i = s.group := by
      have same := congrArg (fun groups : List (Option Nat) => groups[i]?.join) grouped
      have here : (ofContributions contributions).withOwners[i]? = some s := hs
      simp only [List.getElem?_map, here, Option.map_some, Option.join_some] at same
      rw [Collection.groupOf, same]
      cases (ofContributions contributions).symbols[i]? <;> rfl
    have listed (j : Nat) (hj : s.group = some j) : ∃ g, m.groups[j]? = some g ∧ i ∈ g.symbols := by
      have mem := housed.listed i j (group.trans hj)
      rw [symbolsAt] at mem
      cases hg : m.groups[j]? with
      | none => simp [hg] at mem
      | some g => exact ⟨g, rfl, by simpa [hg] using mem⟩
    refine ⟨⟨fun hasGroup => ?_, ?_⟩, listed⟩
    · obtain ⟨j, hj⟩ := Option.isSome_iff_exists.mp hasGroup
      obtain ⟨g, hg, mem⟩ := listed j hj
      exact ⟨g, List.mem_of_getElem? hg, mem⟩
    · rintro ⟨g, hg, mem⟩
      obtain ⟨j, hj⟩ := List.mem_iff_getElem?.mp hg
      rw [← group]
      exact housed.placed i j (by rw [symbolsAt, hj]; exact mem)
  · exact congrArg (_ ++ List.map _ ·) serves.waiting

/-- The first file puts a function into a group that only the second defines, and names a group
that nothing defines. -/
def lateGroup : List Contribution :=
  [⟨0, "a.h".toList, [], none,
    [.declare ⟨.function, ['f'], ['f'], none⟩ none [['L']] 3, .file [['N']]], []⟩,
   ⟨1, "b.h".toList, [], none,
    [.group .define ['L'] [] [] none 1, .openScope none,
      .declare ⟨.function, ['g'], ['g'], none⟩ none [] 2, .closeScope 4], []⟩]

theorem lateGroup_holds_both : ({} : Options).hideUndocumented = false ∧
    (Model.ofContributions {} lateGroup).groups.map Group.roll = [(['L'], [0, 1])] ∧
    (Model.ofContributions {} lateGroup).diagnostics =
      [⟨.unresolved ['N'] .notFound, some "a.h".toList, none⟩] := by
  obtain ⟨rolls, -, -, reports⟩ := groups_hold_requests {} lateGroup rfl
  refine ⟨rfl, rolls.trans ?_, reports.trans ?_⟩
  · decide
  · decide

/-- Whether a link is asked for by a declaration or a file command. -/
def GroupLink.ofContent : GroupLink → Bool
  | .parentOf _ => false
  | .member _ | .file _ => true

/-- A group that asks for a parent is reported as well if no file defines the parent. -/
theorem unlinked_parent_reported : ¬ ∀ contributions : List Contribution,
    (Model.ofContributions {} contributions).diagnostics =
      (Collection.ofContributions contributions).diagnostics ++
        ((requestsOf contributions).filter fun w =>
          w.link.ofContent && !(definedGroups contributions).contains w.group).map
            Collection.unlinked := by
  intro h
  have orphan := h [⟨0, "a.h".toList, [], none, [.group .define ['C'] [] [['N']] none 3], []⟩]
  revert orphan
  decide

end DocComment
