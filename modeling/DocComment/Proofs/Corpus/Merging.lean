import DocComment.Proofs.Corpus.Ledger
import DocComment.Proofs.Corpus.Requests

/-!
# Merging declarations

The declarations of one identity come to one symbol. It keeps what the first of them says, the files
in which it is declared again and the first documentation that any of them has; the ledger grows by
one symbol or by what one more declaration of a known symbol adds.
-/

set_option autoImplicit false

namespace DocComment

/-- A declaration where it stands. -/
structure DeclarationSite where
  decl : Declaration
  doc : Option Doc
  file : Nat
  path : Text
  line : Nat

namespace DeclarationSite

def identity (d : DeclarationSite) : SymbolIdentity := d.decl.identity

def isDocumented (d : DeclarationSite) : Bool := d.doc.isSome

/-- The report on documentation that is not used. -/
def refusal (d : DeclarationSite) : Diagnostic :=
  ⟨.alreadyDocumented d.decl.name, some d.path, some d.line⟩

end DeclarationSite

def Event.site? (file : Nat) (path : Text) : Event → Option DeclarationSite
  | .declare decl doc _ line => some ⟨decl, doc, file, path, line⟩
  | _ => none

/-- The declarations of some files, the first of which has the number `file`. -/
def declarationsFrom (file : Nat) : List Contribution → List DeclarationSite
  | [] => []
  | c :: rest => c.events.filterMap (Event.site? file c.path) ++ declarationsFrom (file + 1) rest

/-- The declarations of a corpus, file by file and event by event. -/
def declarations (contributions : List Contribution) : List DeclarationSite :=
  declarationsFrom 0 contributions

namespace DeclarationSite

/-- The declarations of one symbol. -/
def ofIdentity (i : SymbolIdentity) (sites : List DeclarationSite) : List DeclarationSite :=
  sites.filter (·.identity == i)

/-- The position of the identity among those of some declarations, each where it is met first. -/
def number (sites : List DeclarationSite) (d : DeclarationSite) : Nat :=
  (sites.map identity).eraseDups.idxOf d.identity

/-- The declarations whose documentation comes too late. -/
def refused (sites : List DeclarationSite) : List DeclarationSite :=
  repeated identity (sites.filter isDocumented)

end DeclarationSite

open DeclarationSite

/-- What a symbol is that some declarations have come to. -/
structure Symbol.Merges (mine : List DeclarationSite) (s : Symbol) : Prop where
  first : ∃ d rest, mine = d :: rest ∧ s.kind = d.decl.kind ∧ s.name = d.decl.name ∧
    s.signature = d.decl.signature ∧ s.file = d.file
  increasing : (s.file :: s.redeclaredIn).Pairwise (· < ·)
  files : ∀ file, file ∈ s.file :: s.redeclaredIn ↔ ∃ d ∈ mine, d.file = file
  doc : s.doc = mine.findSome? DeclarationSite.doc

namespace Symbol.Merges

variable {mine : List DeclarationSite} {s : Symbol}

theorem single (d : DeclarationSite) (number : Nat) :
    Symbol.Merges [d]
      { id := number, kind := d.decl.kind, name := d.decl.name, signature := d.decl.signature,
        file := d.file, doc := d.doc } where
  first := ⟨d, [], rfl, rfl, rfl, rfl, rfl⟩
  increasing := by simp
  files := by simp [eq_comm]
  doc := by cases h : d.doc <;> simp [h]

theorem isDocumented (h : s.Merges mine) :
    s.doc.isSome = mine.any DeclarationSite.isDocumented := by
  rw [h.doc, Bool.eq_iff_iff, List.findSome?_isSome_iff, List.any_eq_true]
  rfl

/-- One more declaration, in a file that is not before those of the others. -/
theorem redeclare (h : s.Merges mine) (d : DeclarationSite) (later : ∀ e ∈ mine, e.file ≤ d.file) :
    (Collection.redeclare d.file d.doc s).Merges (mine ++ [d]) where
  first := by
    obtain ⟨e, rest, rfl, same⟩ := h.first
    exact ⟨e, rest ++ [d], rfl, same⟩
  increasing := by
    unfold Collection.redeclare
    dsimp only
    split
    next => exact h.increasing
    next new =>
      rw [← List.cons_append, List.pairwise_append]
      refine ⟨h.increasing, List.pairwise_singleton _ _, fun f hf g hg => ?_⟩
      obtain rfl : g = d.file := List.mem_singleton.mp hg
      obtain ⟨e, he, rfl⟩ := (h.files f).mp hf
      refine lt_of_le_of_ne (later e he) fun same => new ?_
      rw [same] at hf
      exact (List.mem_cons.mp hf).imp_left Eq.symm
  files := by
    intro file
    have before := h.files file
    simp only [List.mem_append, List.mem_singleton, or_and_right, exists_or, exists_eq_left]
    rw [← before]
    unfold Collection.redeclare
    dsimp only
    split
    next known =>
      have listed : d.file ∈ s.file :: s.redeclaredIn :=
        List.mem_cons.mpr (known.imp_left Eq.symm)
      exact ⟨.inl, fun h => h.elim (fun h => h) fun same => same ▸ listed⟩
    next new => rw [← List.cons_append, List.mem_append, List.mem_singleton, eq_comm]
  doc := by
    rw [List.findSome?_append, ← h.doc]
    cases hd : d.doc <;> simp [Collection.redeclare, hd]

/-- Groups and owners do not count. -/
theorem of_bare (h : s.bare.Merges mine) : s.Merges mine :=
  ⟨h.first, h.increasing, h.files, h.doc⟩

end Symbol.Merges

/-! ## The ledger -/

namespace DeclarationSite

variable (sites : List DeclarationSite) (d : DeclarationSite)

theorem ofIdentity_concat (i : SymbolIdentity) :
    ofIdentity i (sites ++ [d]) = ofIdentity i sites ++ if d.identity = i then [d] else [] := by
  by_cases h : d.identity = i <;> simp [ofIdentity, h]

theorem refused_concat :
    refused (sites ++ [d]) =
      refused sites ++
        if d.isDocumented && (ofIdentity d.identity sites).any isDocumented then [d] else [] := by
  have earlier : (sites.filter isDocumented).any (identity · == identity d) =
      (ofIdentity d.identity sites).any isDocumented := by
    simp only [ofIdentity, List.any_filter, Bool.and_comm]
  unfold refused
  cases h : d.isDocumented with
  | true => simp [h, repeated_concat, earlier]
  | false => simp [h]

/-- A number does not change when more is declared. -/
theorem number_eq_of_more {sites all : List DeclarationSite} (more : sites <+: all)
    {d : DeclarationSite} (mem : d ∈ sites) : number all d = number sites d := by
  obtain ⟨later, rfl⟩ := more
  have listed : d.identity ∈ (sites.map identity).eraseDups :=
    List.mem_eraseDups.mpr (List.mem_map_of_mem mem)
  unfold number
  rw [List.map_append, List.eraseDups_append, List.idxOf_append_of_mem listed]

theorem identity_eq_iff {a b : DeclarationSite} :
    a.identity = b.identity ↔
      a.decl.kind = b.decl.kind ∧ a.decl.name = b.decl.name ∧ a.decl.owner = b.decl.owner := by
  simp only [identity, Declaration.identity, SymbolIdentity.mk.injEq,
    and_comm (b := a.decl.name = _)]

theorem number_eq_iff {sites : List DeclarationSite} {a b : DeclarationSite} (mem : a ∈ sites) :
    number sites a = number sites b ↔ a.identity = b.identity :=
  List.idxOf_inj (List.mem_eraseDups.mpr (List.mem_map_of_mem mem))

end DeclarationSite

/-- The ledger says what comes of the declarations in `sites`; `own` are the reports of this kind
that the files bring with them. -/
structure Ledger.Records (l : Ledger) (sites : List DeclarationSite) (own : List Diagnostic) :
    Prop where
  identities : l.identities = (sites.map identity).eraseDups
  distinct : l.identities.Nodup
  aligned : l.identities.length = l.symbols.length
  symbols : ∀ (n : Nat) (i : SymbolIdentity) (s : Symbol), l.identities[n]? = some i →
    l.symbols[n]? = some s → s.Merges (ofIdentity i sites)
  files : ∀ d ∈ sites, d.file < l.files
  duplicates : l.duplicates.Perm (own ++ (refused sites).map refusal)

namespace Ledger

variable {l : Ledger} {sites : List DeclarationSite} {own : List Diagnostic}

/-- A declaration of a symbol that is there, at position `n`. -/
def redeclare (l : Ledger) (n : Nat) (d : DeclarationSite) : Ledger :=
  { l with
    symbols := l.symbols.modify n (Collection.redeclare d.file d.doc)
    duplicates := l.duplicates ++
      if (l.symbols[n]?.bind Symbol.doc).isSome && d.doc.isSome then [d.refusal] else [] }

/-- A declaration of a symbol that is new. -/
def declare (l : Ledger) (d : DeclarationSite) : Ledger :=
  { l with
    identities := l.identities ++ [d.identity]
    symbols := l.symbols ++
      [{ id := l.symbols.length, kind := d.decl.kind, name := d.decl.name,
         signature := d.decl.signature, file := d.file, doc := d.doc }] }

theorem Records.mem_files (h : l.Records sites own) {d : DeclarationSite}
    (current : d.file + 1 = l.files) : ∀ e ∈ sites ++ [d], e.file < l.files := by
  rw [List.forall_mem_append]
  refine ⟨h.files, fun e he => ?_⟩
  rw [List.mem_singleton.mp he]
  omega

theorem Records.ofIdentity_eq_nil (h : l.Records sites own) {i : SymbolIdentity}
    (new : i ∉ l.identities) : ofIdentity i sites = [] := by
  rw [h.identities, List.mem_eraseDups, List.mem_map] at new
  exact List.filter_eq_nil_iff.mpr fun d hd same => new ⟨d, hd, eq_of_beq same⟩

/-- The declarations that have a number are those of the identity that stands there. -/
theorem Records.number_eq_iff (h : l.Records sites own) {n : Nat} {i : SymbolIdentity}
    (found : l.identities[n]? = some i) (d : DeclarationSite) :
    number sites d = n ↔ d.identity = i := by
  obtain ⟨hn, rfl⟩ := List.getElem?_eq_some_iff.mp found
  have first : l.identities.idxOf l.identities[n] = n := h.distinct.idxOf_getElem n hn
  unfold number
  rw [← h.identities]
  constructor
  · intro same
    have mem : l.identities[n] ∈ l.identities := List.getElem_mem hn
    exact ((List.idxOf_inj mem).mp (first.trans same.symm)).symm
  · intro same
    rw [same, first]

theorem Records.zip_filter (h : l.Records sites own) {n : Nat} {i : SymbolIdentity}
    (found : l.identities[n]? = some i) :
    ((sites.map fun d => (d, number sites d)).filter (·.2 == n)).map Prod.fst =
      ofIdentity i sites := by
  rw [List.filter_map, List.map_map]
  refine (List.map_id' _).trans (List.filter_congr fun d _ => ?_)
  rw [Bool.eq_iff_iff]
  simpa using h.number_eq_iff found d

/-- The numbers of declarations are the positions of symbols. -/
theorem Records.lt_length_iff (h : l.Records sites own) (n : Nat) :
    n < l.symbols.length ↔ n ∈ sites.map (number sites) := by
  rw [← h.aligned, List.mem_map]
  constructor
  · intro hn
    have found := List.getElem?_eq_getElem hn
    have mem : l.identities[n] ∈ sites.map identity := by
      rw [← List.mem_eraseDups, ← h.identities]
      exact List.getElem_mem hn
    obtain ⟨d, hd, same⟩ := List.mem_map.mp mem
    exact ⟨d, hd, (h.number_eq_iff found d).mpr same⟩
  · rintro ⟨d, hd, rfl⟩
    rw [h.identities]
    exact List.idxOf_lt_length_of_mem (List.mem_eraseDups.mpr (List.mem_map_of_mem hd))

/-- A symbol has documentation if one of its declarations has. -/
theorem Records.documented (h : l.Records sites own) {n : Nat} {i : SymbolIdentity}
    (found : l.identities[n]? = some i) :
    (l.symbols[n]?.bind Symbol.doc).isSome = (ofIdentity i sites).any isDocumented := by
  obtain ⟨hn, -⟩ := List.getElem?_eq_some_iff.mp found
  have at_ := List.getElem?_eq_getElem (h.aligned ▸ hn)
  rw [at_, Option.bind_some]
  exact (h.symbols n i _ found at_).isDocumented

theorem Records.redeclare (h : l.Records sites own) {n : Nat} {d : DeclarationSite}
    (found : l.identities[n]? = some d.identity) (current : d.file + 1 = l.files) :
    (l.redeclare n d).Records (sites ++ [d]) own where
  identities := by
    have mem : d.identity ∈ l.identities := List.mem_of_getElem? found
    have kept : (l.redeclare n d).identities = l.identities := rfl
    rw [List.map_append, List.map_singleton, Outline.eraseDups_concat, ← h.identities, kept]
    simp [Outline.note, mem]
  distinct := h.distinct
  aligned := by simp [Ledger.redeclare, h.aligned]
  symbols := by
    intro k i s hi hs
    have later : ∀ e ∈ ofIdentity d.identity sites, e.file ≤ d.file := fun e he => by
      have := h.files e (List.mem_of_mem_filter he)
      omega
    have changed : (l.redeclare n d).symbols =
        l.symbols.modify n (Collection.redeclare d.file d.doc) := rfl
    have hi : l.identities[k]? = some i := hi
    rw [changed, List.getElem?_modify] at hs
    obtain ⟨s₀, hs₀, rfl⟩ := Option.map_eq_some_iff.mp hs
    have before := h.symbols k i s₀ hi hs₀
    obtain ⟨hn, -⟩ := List.getElem?_eq_some_iff.mp found
    rw [ofIdentity_concat]
    by_cases here : n = k
    · subst here
      obtain rfl : d.identity = i := Option.some.inj (found.symm.trans hi)
      simp only [if_true]
      exact before.redeclare d later
    · have other : d.identity ≠ i := by
        rintro rfl
        exact here ((List.getElem?_inj hn h.distinct).mp (found.trans hi.symm))
      simpa [here, other] using before
  files := h.mem_files current
  duplicates := by
    rw [refused_concat, List.map_append, ← List.append_assoc, ← h.documented found, Bool.and_comm]
    refine h.duplicates.append (.of_eq ?_)
    rw [apply_ite (List.map refusal)]
    rfl

theorem Records.declare (h : l.Records sites own) {d : DeclarationSite}
    (new : d.identity ∉ l.identities) (current : d.file + 1 = l.files) :
    (l.declare d).Records (sites ++ [d]) own where
  identities := by
    have added : (l.declare d).identities = l.identities ++ [d.identity] := rfl
    rw [List.map_append, List.map_singleton, Outline.eraseDups_concat, ← h.identities, added]
    simp [Outline.note, new]
  distinct := h.distinct.append (List.nodup_singleton _) (by simpa using new)
  aligned := by simp [Ledger.declare, h.aligned]
  symbols := by
    intro k i s hi hs
    have hi : (l.identities ++ [d.identity])[k]? = some i := hi
    have hs : (l.symbols ++ [_])[k]? = some s := hs
    rw [ofIdentity_concat]
    by_cases old : k < l.identities.length
    · rw [List.getElem?_append_left old] at hi
      rw [List.getElem?_append_left (h.aligned ▸ old)] at hs
      have other : d.identity ≠ i := by
        rintro rfl
        exact new (List.mem_of_getElem? hi)
      simpa [other] using h.symbols k i s hi hs
    · obtain rfl : k = l.identities.length := by
        have := (List.getElem?_eq_some_iff.mp hi).1
        rw [List.length_append, List.length_singleton] at this
        omega
      obtain rfl : d.identity = i := by simpa using hi
      rw [h.aligned, List.getElem?_concat_length] at hs
      obtain rfl := Option.some.inj hs
      rw [h.ofIdentity_eq_nil new, List.nil_append, if_pos rfl]
      exact .single d l.symbols.length
  files := h.mem_files current
  duplicates := by
    rw [refused_concat, h.ofIdentity_eq_nil new]
    simpa [Ledger.declare] using h.duplicates

end Ledger

end DocComment
