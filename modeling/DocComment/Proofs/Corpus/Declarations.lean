import DocComment.Proofs.Corpus.Merging
import DocComment.Proofs.Corpus.Reports

/-!
# Declarations and symbols

Read file by file and event by event, the declarations of a corpus come to symbols: those of one
identity to one symbol, whose number each of them is given. Documentation that comes too late is
reported, and nothing else becomes of it.
-/

set_option autoImplicit false

namespace DocComment

open DeclarationSite

namespace Collection

/-- Records a declaration that stands somewhere. -/
def recordSite (c : Collection) (d : DeclarationSite) : Collection × Nat :=
  c.record d.decl d.doc d.file d.path d.line

/-- The number that a declaration gets when it is recorded. -/
def Progress.number? (file : Nat) (path : Text) (p : Progress) (e : Event) : Option Nat :=
  (e.site? file path).map fun d => (p.collection.recordSite d).2

/-- The numbers that the declarations among some events get, one after another. -/
def Progress.numbers (file : Nat) (path : Text) : Progress → List Event → List Nat
  | _, [] => []
  | p, e :: rest =>
    (p.number? file path e).toList ++ numbers file path (p.event file path e) rest

/-- The numbers that the declarations of some files get. -/
def numbers : Collection → List Contribution → List Nat
  | _, [] => []
  | c, next :: rest =>
    (c.start next).numbers c.files.length next.path next.events ++ numbers (c.add next) rest

variable {c : Collection} {sites : List DeclarationSite} {own : List Diagnostic}

theorem doc_ledger (c : Collection) (n : Nat) :
    c.ledger.symbols[n]?.bind Symbol.doc = c.symbols[n]?.bind Symbol.doc := by
  simp only [ledger, List.getElem?_map]
  cases c.symbols[n]? <;> rfl

theorem recordSite_known {c : Collection} {d : DeclarationSite} (mem : d.identity ∈ c.identities) :
    (c.recordSite d).1.ledger = c.ledger.redeclare (c.identities.idxOf d.identity) d := by
  have found : c.identities.idxOf? d.decl.identity = some (c.identities.idxOf d.identity) :=
    idxOf?_of_mem mem
  have changed := map_modify (g := Symbol.bare) (f := redeclare d.file d.doc)
    (h := redeclare d.file d.doc) (fun _ => rfl) c.symbols (c.identities.idxOf d.identity)
  have documented := doc_ledger c (c.identities.idxOf d.identity)
  unfold recordSite record
  rw [found]
  simp only [Ledger.redeclare, documented]
  split
  · simp [ledger, report, changed, Diagnostic.duplicates, refusal, Problem.isDuplicate]
  · simp [ledger, changed]

theorem recordSite_new {c : Collection} {d : DeclarationSite} (new : d.identity ∉ c.identities) :
    (c.recordSite d).1.ledger = c.ledger.declare d := by
  have absent : c.identities.idxOf? d.decl.identity = none := List.idxOf?_eq_none_iff.mpr new
  unfold recordSite record
  rw [absent]
  simp [ledger, Ledger.declare, Symbol.bare, identity]

theorem recordSite_files (c : Collection) (d : DeclarationSite) :
    (c.recordSite d).1.files.length = c.files.length := by
  by_cases mem : d.identity ∈ c.identities
  · exact congrArg Ledger.files (recordSite_known mem)
  · exact congrArg Ledger.files (recordSite_new mem)

theorem recordSite_records (h : c.ledger.Records sites own) (d : DeclarationSite)
    (current : d.file + 1 = c.files.length) :
    (c.recordSite d).1.ledger.Records (sites ++ [d]) own := by
  by_cases mem : d.identity ∈ c.identities
  · rw [recordSite_known mem]
    exact h.redeclare (List.getElem?_idxOf mem) current
  · rw [recordSite_new mem]
    exact h.declare mem current

theorem recordSite_number (h : c.ledger.Records sites own) (d : DeclarationSite) :
    (c.recordSite d).2 = number (sites ++ [d]) d := by
  have aligned : c.identities.length = c.symbols.length := by simpa [ledger] using h.aligned
  have identities : c.identities = (sites.map identity).eraseDups := h.identities
  unfold number
  rw [List.map_append, List.map_singleton, Outline.eraseDups_concat, ← identities]
  refine (record_number c aligned d.decl d.doc d.file d.path d.line).1.trans ?_
  by_cases mem : d.identity ∈ c.identities
  · rw [Outline.note, if_pos (List.contains_iff_mem.mpr mem)]
    rfl
  · have last : (c.identities ++ [d.identity]).idxOf d.identity = c.identities.length := by
      simp [List.idxOf_append, mem]
    rw [Outline.note, if_neg (mt List.contains_iff_mem.mp mem), last]
    exact List.idxOf_eq_length mem

/-! ## Events -/

theorem placeSymbol_ledger (c : Collection) (current : Option Nat) (symbol : Nat)
    (decl : Declaration) (groups : List Text) (path : Text) (line : Nat) :
    (c.placeSymbol current symbol decl groups path line).ledger = c.ledger := by
  unfold placeSymbol
  split
  · exact requestAll_ledger c groups (.member symbol) path line
  · split
    · exact joinSymbol_ledger c _ symbol
    · rfl

theorem placeGroup_ledger (c : Collection) (current : Option Nat) (op : GroupCommand) (group : Nat)
    (parents : List Text) (doc : Option Doc) (path : Text) (line : Nat) :
    (c.placeGroup current op group parents doc path line).ledger = c.ledger := by
  have documented : ((doc.map (c.documentGroup group)).getD c).ledger = c.ledger := by
    cases doc <;> rfl
  unfold placeGroup
  rw [← documented]
  generalize (doc.map (c.documentGroup group)).getD c = c'
  dsimp only
  split
  · exact requestAll_ledger c' parents (.parentOf group) path line
  · split
    · split
      · rfl
      · exact joinGroup_ledger c' group _ path line
    · rfl

namespace Progress

/-- Only declarations change the ledger. -/
theorem event_ledger (file : Nat) (path : Text) (p : Progress) (e : Event) :
    (p.event file path e).collection.ledger =
      ((e.site? file path).map fun d => (p.collection.recordSite d).1.ledger).getD
        p.collection.ledger := by
  cases e with
  | group op name title parents doc line =>
    have entered := enterGroup_ledger p.collection op name title path line
    change (p.nameGroup path op name title parents doc line).collection.ledger = _
    rw [nameGroup_eq]
    dsimp only
    split
    · exact entered
    · exact (placeGroup_ledger _ p.current op _ parents doc path line).trans entered
  | openScope group => rfl
  | closeScope line =>
    change (p.closeScope path line).collection.ledger = _
    unfold closeScope
    split
    · rfl
    · exact report_ledger _ rfl path (some line)
  | file groups =>
    change (p.placeFile file path groups).collection.ledger = _
    unfold placeFile
    dsimp only
    split
    · exact requestAll_ledger _ groups (.file file) path 0
    · split
      · exact connect_ledger p.collection _ (.file file) path 0
      · rfl
  | declare decl doc groups line =>
    exact placeSymbol_ledger _ p.current _ decl groups path line

variable {file : Nat} {path : Text} {p : Progress}

theorem file_of_site? {e : Event} {d : DeclarationSite} (h : e.site? file path = some d) :
    d.file = file := by
  cases e <;> simp only [Event.site?, reduceCtorEq, Option.some.injEq] at h
  rw [← h]

/-- The ledger knows one more declaration after an event that is one, and its number is that of
its identity. -/
theorem event_records (h : p.collection.ledger.Records sites own)
    (current : file + 1 = p.collection.files.length) (e : Event) :
    (p.event file path e).collection.ledger.Records (sites ++ (e.site? file path).toList) own ∧
      (p.event file path e).collection.files.length = p.collection.files.length ∧
        p.number? file path e =
          (e.site? file path).map fun d => number (sites ++ (e.site? file path).toList) d := by
  have ledger := event_ledger file path p e
  unfold number?
  cases site : e.site? file path with
  | none =>
    have same : (p.event file path e).collection.ledger = p.collection.ledger := by
      simpa [site] using ledger
    refine ⟨?_, congrArg Ledger.files same, rfl⟩
    rw [same, Option.toList_none, List.append_nil]
    exact h
  | some d =>
    have recorded :
        (p.event file path e).collection.ledger = (p.collection.recordSite d).1.ledger := by
      simpa [site] using ledger
    have here : d.file + 1 = p.collection.files.length := by rw [file_of_site? site, current]
    refine ⟨?_, ?_, congrArg some (recordSite_number h d)⟩
    · rw [recorded]
      exact recordSite_records h d here
    · exact (congrArg Ledger.files recorded).trans (recordSite_files p.collection d)

theorem events_records (path : Text) (h : p.collection.ledger.Records sites own)
    (current : file + 1 = p.collection.files.length) (events : List Event) :
    let after := events.foldl (event file path) p
    let met := events.filterMap (Event.site? file path)
    after.collection.ledger.Records (sites ++ met) own ∧
      after.collection.files.length = p.collection.files.length ∧
        ∀ all, sites ++ met <+: all → p.numbers file path events = met.map (number all) := by
  induction events generalizing p sites with
  | nil =>
    exact ⟨by simpa using h, rfl, fun _ _ => rfl⟩
  | cons e rest ih =>
    obtain ⟨first, count, given⟩ := event_records h current e
    obtain ⟨last, counts, others⟩ := ih first (current.trans count.symm)
    have met : (e :: rest).filterMap (Event.site? file path) =
        (e.site? file path).toList ++ rest.filterMap (Event.site? file path) := by
      rw [List.filterMap_cons]
      cases e.site? file path <;> rfl
    simp only [met, List.foldl_cons, ← List.append_assoc]
    refine ⟨last, counts.trans count, fun all more => ?_⟩
    rw [numbers, List.map_append, others all more, given]
    congr 1
    cases site : e.site? file path with
    | none => rfl
    | some d =>
      have soFar : sites ++ [d] <+: all := by
        rw [site] at more
        exact (List.prefix_append _ _).trans more
      exact congrArg (fun n => [n]) (number_eq_of_more soFar (by simp)).symm

end Progress

/-! ## Files -/

theorem start_records (h : c.ledger.Records sites own) (next : Contribution) :
    (c.start next).collection.ledger.Records sites
      (own ++ Diagnostic.duplicates next.diagnostics) where
  identities := h.identities
  distinct := h.distinct
  aligned := h.aligned
  symbols := h.symbols
  files d hd := by
    have := h.files d hd
    simp only [start, ledger, List.length_append, List.length_singleton] at this ⊢
    omega
  duplicates := by
    have reports : (c.start next).collection.ledger.duplicates =
        c.ledger.duplicates ++ Diagnostic.duplicates next.diagnostics :=
      List.filter_append _ _
    rw [reports, List.append_assoc]
    exact (h.duplicates.append_right _).trans
      (by rw [List.append_assoc]; exact List.perm_append_comm.append_left own)

theorem leave_ledger (path : Text) (p : Progress) :
    (leave path p).ledger = p.collection.ledger := by
  unfold leave
  split
  · rfl
  · exact report_ledger _ rfl path none

theorem add_records (h : c.ledger.Records sites own) (next : Contribution) :
    let met := next.events.filterMap (Event.site? c.files.length next.path)
    (c.add next).ledger.Records (sites ++ met) (own ++ Diagnostic.duplicates next.diagnostics) ∧
      (c.add next).files.length = c.files.length + 1 ∧
        ∀ all, sites ++ met <+: all →
          (c.start next).numbers c.files.length next.path next.events = met.map (number all) := by
  have current : c.files.length + 1 = (c.start next).collection.files.length := by simp [start]
  obtain ⟨records, count, given⟩ :=
    Progress.events_records next.path (start_records h next) current next.events
  have left := leave_ledger next.path
    (next.events.foldl (Progress.event c.files.length next.path) (c.start next))
  rw [add_eq]
  refine ⟨left ▸ records, (congrArg Ledger.files left).trans (count.trans current.symm), given⟩

theorem adds_records (h : c.ledger.Records sites own) (contributions : List Contribution) :
    let met := declarationsFrom c.files.length contributions
    (contributions.foldl add c).ledger.Records (sites ++ met)
        (own ++ contributions.flatMap fun next => Diagnostic.duplicates next.diagnostics) ∧
      ∀ all, sites ++ met <+: all → c.numbers contributions = met.map (number all) := by
  induction contributions generalizing c sites own with
  | nil => exact ⟨by simpa [declarationsFrom] using h, fun _ _ => rfl⟩
  | cons next rest ih =>
    obtain ⟨first, count, given⟩ := add_records h next
    obtain ⟨last, others⟩ := ih first
    rw [count] at last others
    simp only [declarationsFrom, List.foldl_cons, List.flatMap_cons, ← List.append_assoc]
    refine ⟨last, fun all more => ?_⟩
    rw [numbers, List.map_append, others all more, given all ((List.prefix_append _ _).trans more)]

theorem empty_records : Ledger.Records (ledger {}) [] [] where
  identities := rfl
  distinct := List.nodup_nil
  aligned := rfl
  symbols n i s hi := by simp [ledger] at hi
  files d hd := by simp at hd
  duplicates := .nil

theorem ofContributions_records (contributions : List Contribution) :
    (ofContributions contributions).ledger.Records (declarations contributions)
        (contributions.flatMap fun next => Diagnostic.duplicates next.diagnostics) ∧
      numbers {} contributions =
        (declarations contributions).map (number (declarations contributions)) := by
  obtain ⟨records, given⟩ := adds_records empty_records contributions
  exact ⟨records, given _ List.prefix_rfl⟩

theorem zip_numbers (contributions : List Contribution) :
    (declarations contributions).zip (numbers {} contributions) =
      (declarations contributions).map fun d => (d, number (declarations contributions) d) := by
  rw [(ofContributions_records contributions).2, ← List.map_prod_left_eq_zip]

/-! ## Documentation that comes too late -/

theorem modify_redeclare (c : Collection) {n : Nat}
    (documented : (c.symbols[n]?.bind Symbol.doc).isSome) (file : Nat) (doc : Option Doc) :
    c.symbols.modify n (redeclare file doc) = c.symbols.modify n (redeclare file none) := by
  apply List.ext_getElem?
  intro k
  rw [List.getElem?_modify, List.getElem?_modify]
  by_cases here : n = k
  · subst here
    cases at_ : c.symbols[n]? with
    | none => rfl
    | some s =>
      obtain ⟨kept, has⟩ : ∃ kept, s.doc = some kept := by
        simpa [at_, Option.isSome_iff_exists] using documented
      simp [redeclare, has]
  · simp [here]

/-- Documentation of a symbol that has one is reported, and the declaration is recorded as if it had
none. -/
theorem record_refused (c : Collection) {decl : Declaration}
    (known : decl.identity ∈ c.identities)
    (documented : (c.symbols[c.identities.idxOf decl.identity]?.bind Symbol.doc).isSome)
    (doc : Doc) (file : Nat) (path : Text) (line : Nat) :
    c.record decl (some doc) file path line =
      ((c.record decl none file path line).1.report (.alreadyDocumented decl.name) path (some line),
        (c.record decl none file path line).2) := by
  unfold record
  rw [idxOf?_of_mem known]
  simp [documented, modify_redeclare c documented file (some doc)]

theorem Progress.declare_refused (p : Progress) (file : Nat) (path : Text) {decl : Declaration}
    (known : decl.identity ∈ p.collection.identities)
    (documented : (p.collection.symbols[p.collection.identities.idxOf decl.identity]?.bind
      Symbol.doc).isSome)
    (doc : Doc) (groups : List Text) (line : Nat) :
    ∃ c c', c.OneMore ⟨.alreadyDocumented decl.name, some path, some line⟩ c' ∧
      p.declare file path decl none groups line = { p with collection := c } ∧
        p.declare file path decl (some doc) groups line = { p with collection := c' } := by
  have recorded := oneMore_report (p.collection.record decl none file path line).1
    (.alreadyDocumented decl.name) path (some line)
  let number := (p.collection.record decl none file path line).2
  have placed := recorded.map (f := fun c => c.placeSymbol p.current number decl groups path line)
    fun found c => placeSymbol_after found c p.current number decl groups path line
  refine ⟨_, _, placed, rfl, ?_⟩
  rw [declare_eq, record_refused _ known documented]

/-- Documentation that comes too late makes one more report, and nothing else. -/
theorem declared_refused (options : Options) (before : List Contribution) (next : Contribution)
    (early : List Event) (decl : Declaration) (doc : Doc) (groups : List Text) (line : Nat)
    (late : List Event) (rest : List Contribution)
    (documented : ∃ e ∈ declarations (before ++ [{ next with events := early }]),
      e.identity = decl.identity ∧ e.isDocumented) :
    let corpus (doc : Option Doc) :=
      before ++ { next with events := early ++ .declare decl doc groups line :: late } :: rest
    (Model.ofContributions options (corpus none)).OneMore
      ⟨.alreadyDocumented decl.name, some next.path, some line⟩
      (Model.ofContributions options (corpus (some doc))) := by
  intro corpus
  let file := (ofContributions before).files.length
  let p := early.foldl (Progress.event file next.path) ((ofContributions before).start next)
  have ledger : (ofContributions (before ++ [{ next with events := early }])).ledger =
      p.collection.ledger := by
    unfold ofContributions
    rw [List.foldl_append]
    exact leave_ledger next.path p
  have records := (ofContributions_records (before ++ [{ next with events := early }])).1
  rw [ledger] at records
  obtain ⟨e, he, same, has⟩ := documented
  have known : decl.identity ∈ p.collection.identities := by
    have identities : p.collection.identities = _ := records.identities
    rw [identities, List.mem_eraseDups]
    exact List.mem_map.mpr ⟨e, he, same⟩
  have shown : (p.collection.symbols[p.collection.identities.idxOf decl.identity]?.bind
      Symbol.doc).isSome = true := by
    have found : p.collection.ledger.identities[p.collection.identities.idxOf decl.identity]? =
        some decl.identity := List.getElem?_idxOf known
    rw [← doc_ledger, records.documented found, List.any_eq_true]
    exact ⟨e, List.mem_filter.mpr ⟨he, beq_iff_eq.mpr same⟩, has⟩
  have run (doc : Option Doc) : ofContributions (corpus doc) =
      rest.foldl add (leave next.path (late.foldl (Progress.event file next.path)
        (p.declare file next.path decl doc groups line))) := by
    simp only [ofContributions, corpus, List.foldl_append, List.foldl_cons, add_eq]
    rfl
  obtain ⟨c, c', oneMore, withoutDoc, withDoc⟩ :=
    p.declare_refused file next.path known shown doc groups line
  rw [Model.ofContributions, Model.ofContributions, run, run, withoutDoc, withDoc]
  exact (oneMore.run _ _ _ _ _ _).toModel options

/-- Requests that nothing answers are reported last, and no such report is on documentation. -/
theorem duplicates_toModel (c : Collection) (options : Options) :
    Diagnostic.duplicates (c.toModel options).diagnostics = c.ledger.duplicates := by
  have unlinked : Diagnostic.duplicates (c.waiting.map Collection.unlinked) = [] := by
    simp [Diagnostic.duplicates, Collection.unlinked, Problem.isDuplicate]
  have reports : Diagnostic.duplicates (c.toModel options).diagnostics =
      c.ledger.duplicates ++ Diagnostic.duplicates (c.waiting.map Collection.unlinked) :=
    List.filter_append _ _
  rw [reports, unlinked, List.append_nil]

end Collection

open Collection

/-- Declarations of one kind, name and owner are one symbol. It stands in the first file that
declares it and notes the others in their order, its signature is that of the first declaration and
its documentation the first that a declaration has. Of later documentation nothing is left but a
report. -/
theorem symbols_merge_declarations (options : Options) (contributions : List Contribution) :
    let m := Model.ofContributions options contributions
    let sites := declarations contributions
    let numbers := Collection.numbers {} contributions
    numbers.length = sites.length ∧
      (∀ a ∈ sites.zip numbers, ∀ b ∈ sites.zip numbers, a.2 = b.2 ↔
        a.1.decl.kind = b.1.decl.kind ∧ a.1.decl.name = b.1.decl.name ∧
          a.1.decl.owner = b.1.decl.owner) ∧
      (∀ n, n < m.symbols.length ↔ n ∈ numbers) ∧
      (∀ (n : Nat) (s : Symbol), m.symbols[n]? = some s →
        s.id = n ∧ s.Merges (((sites.zip numbers).filter (·.2 == n)).map Prod.fst)) ∧
      (Diagnostic.duplicates m.diagnostics).Perm
        ((contributions.flatMap fun c => Diagnostic.duplicates c.diagnostics) ++
          (refused sites).map refusal) ∧
      ∀ (before : List Contribution) (next : Contribution) (early late : List Event)
        (rest : List Contribution) (decl : Declaration) (doc : Doc) (groups : List Text)
        (line : Nat),
        let corpus (doc : Option Doc) :=
          before ++ { next with events := early ++ .declare decl doc groups line :: late } :: rest
        contributions = corpus (some doc) →
        (∃ d ∈ declarations (before ++ [{ next with events := early }]),
          d.identity = decl.identity ∧ d.isDocumented) →
        (Model.ofContributions options (corpus none)).OneMore
          ⟨.alreadyDocumented decl.name, some next.path, some line⟩ m := by
  intro m sites numbers
  obtain ⟨records, given⟩ := ofContributions_records contributions
  have given : numbers = sites.map (number sites) := given
  have zipped : sites.zip numbers = sites.map fun d => (d, number sites d) :=
    zip_numbers contributions
  have coherent := (ofContributions_changes contributions).coherent empty_coherent
  have symbols : m.symbols.map Symbol.bare = (ofContributions contributions).ledger.symbols :=
    withOwners_map Symbol.bare (fun _ _ => rfl) coherent
  refine ⟨by rw [given, List.length_map], ?_, fun n => ?_, fun n s hs => ⟨?_, ?_⟩, ?_, ?_⟩
  · rw [zipped]
    simp only [List.forall_mem_map]
    exact fun a ha b _ => (number_eq_iff ha).trans identity_eq_iff
  · rw [given, ← records.lt_length_iff, ← symbols, List.length_map]
  · exact (Model.ofContributions_numbered options contributions).symbols.getElem?_eq hs
  · have bare : (ofContributions contributions).ledger.symbols[n]? = some s.bare := by
      rw [← symbols, List.getElem?_map, hs]
      rfl
    have hn : n < (ofContributions contributions).ledger.identities.length := by
      rw [records.aligned]
      exact (List.getElem?_eq_some_iff.mp bare).1
    have found := List.getElem?_eq_getElem hn
    rw [zipped, records.zip_filter found]
    exact (records.symbols n _ _ found bare).of_bare
  · exact (List.Perm.of_eq (duplicates_toModel _ options)).trans records.duplicates
  · rintro before next early late rest decl doc groups line corpus rfl documented
    exact declared_refused options before next early decl doc groups line late rest documented

/-- A function that two files declare, both with documentation, but for what the second one says. -/
def declaredTwice (later : Option Doc) : List Contribution :=
  let declared (doc : Option Doc) (line : Nat) : Event :=
    .declare ⟨.function, "open".toList, "open".toList, none⟩ doc [] line
  [⟨0, "io.h".toList, [], none, [declared (some { detail := [.text "Opens.".toList] }) 3], []⟩,
    ⟨1, "file.h".toList, [], none, [declared later 7], []⟩]

theorem declaredTwice_merged :
    let later : Doc := { detail := [.text "Opens a file.".toList] }
    let m := Model.ofContributions {} (declaredTwice (some later))
    m.symbols.map (fun s => (s.file, s.redeclaredIn)) = [(0, [1])] ∧
      (Model.ofContributions {} (declaredTwice none)).OneMore
        ⟨.alreadyDocumented "open".toList, some "file.h".toList, some 7⟩ m := by
  intro later m
  have merged := (symbols_merge_declarations {} (declaredTwice (some later))).2.2.2.2.2
  have documented : ∃ d ∈ declarations ((declaredTwice none).take 1 ++
        [⟨1, "file.h".toList, [], none, [], []⟩]),
      d.identity = ⟨.function, none, "open".toList⟩ ∧ d.isDocumented :=
    ⟨_, List.mem_cons_self, rfl, rfl⟩
  exact ⟨by decide +kernel, merged ((declaredTwice none).take 1)
    ⟨1, "file.h".toList, [], none, [], []⟩ [] [] []
    ⟨.function, "open".toList, "open".toList, none⟩ later [] 7 rfl documented⟩

end DocComment
