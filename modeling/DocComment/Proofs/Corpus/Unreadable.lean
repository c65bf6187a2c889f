import DocComment.Proofs.Comment.Clean
import DocComment.Proofs.Corpus.Reports
import DocComment.Proofs.Line.Stream
import DocComment.Proofs.Reference.Reports

/-!
# Files that cannot be read

A file is read up to the first fragment with a control character in one of its comments. What was
read before is thrown away, so the rest of the corpus is documented as if the file were empty, and
the report on it is the only difference.
-/

set_option autoImplicit false

namespace DocComment

/-! ## Comments with control characters -/

/-- The first control character in the lines of the comment that `raw` writes. -/
def Comment.controlCharacter? (tabWidth : Nat) (raw : Text) : Option ControlCharacter :=
  ControlCharacter.find? 0 (ofRaw tabWidth raw).lines

/-- A comment of the fragment has a line with a control character. -/
def SourceFragment.Unreadable (options : Options) (fragment : SourceFragment) : Prop :=
  ∃ raw ∈ fragment.before.toList ++ fragment.after.toList,
    ∃ t ∈ (Comment.ofRaw options.tabWidth raw).lines, ∃ c ∈ t, Text.isControl c = true

/-- The first control character in the comments of a fragment. -/
def SourceFragment.controlCharacter? (options : Options) (fragment : SourceFragment) :
    Option ControlCharacter :=
  (fragment.before.bind (Comment.controlCharacter? options.tabWidth)).or
    (fragment.after.bind (Comment.controlCharacter? options.tabWidth))

namespace Comment

theorem controlCharacter?_isSome {width : Nat} {raw : Text} :
    (controlCharacter? width raw).isSome ↔
      ∃ t ∈ (ofRaw width raw).lines, ∃ c ∈ t, Text.isControl c = true := by
  rw [Option.isSome_iff_ne_none, controlCharacter?, Ne, ControlCharacter.find?_eq_none_iff]
  push Not
  constructor
  · rintro ⟨t, ht, c, hc, control, -⟩
    exact ⟨t, ht, c, hc, control⟩
  · rintro ⟨t, ht, c, hc, control⟩
    refine ⟨t, ht, c, hc, control, ?_⟩
    rintro rfl
    exact ((ofRaw_clean width raw).lines t ht).tab hc

end Comment

theorem SourceFragment.unreadable_iff {options : Options} {fragment : SourceFragment} :
    fragment.Unreadable options ↔ (fragment.controlCharacter? options).isSome := by
  have bind (o : Option Text) :
      (o.bind (Comment.controlCharacter? options.tabWidth)).isSome = true ↔
        ∃ raw ∈ o.toList, (Comment.controlCharacter? options.tabWidth raw).isSome = true := by
    cases o <;> simp
  simp only [Unreadable, controlCharacter?, Option.isSome_or, Bool.or_eq_true, bind,
    Comment.controlCharacter?_isSome, List.mem_append, or_and_right, exists_or]

instance (options : Options) (fragment : SourceFragment) :
    Decidable (fragment.Unreadable options) :=
  decidable_of_iff _ SourceFragment.unreadable_iff.symm

/-! ## Reading -/

/-- A result that fails on the control character in `found`, if there is one and the blocks before
it do not nest too deep. -/
def CommentError.FailsOn {α : Type} (found : Option ControlCharacter) : Except CommentError α → Prop
  | .ok _ => found = none
  | .error (.controlCharacter e) => found = some e
  | .error .nesting => True

namespace CommentError

variable {α β : Type} {found later : Option ControlCharacter}

theorem FailsOn.bind {x : Except CommentError α} (hx : FailsOn found x)
    {f : α → Except CommentError β} (hf : ∀ a, FailsOn later (f a)) :
    FailsOn (found.or later) (x >>= f) := by
  cases x with
  | ok a =>
    obtain rfl : found = none := hx
    exact hf a
  | error e =>
    cases e with
    | controlCharacter e =>
      obtain rfl : found = some e := hx
      rfl
    | nesting => trivial

/-- For an action that does not fail after its first step. -/
theorem FailsOn.bindOk {x : Except CommentError α} (hx : FailsOn found x)
    {f : α → Except CommentError β} (hf : ∀ a, ∃ b, f a = .ok b) : FailsOn found (x >>= f) := by
  cases x with
  | ok a =>
    obtain ⟨b, same⟩ := hf a
    change FailsOn found (f a)
    rw [same]
    exact hx
  | error e => cases e <;> exact hx

end CommentError

open CommentError

theorem Documentation.ofRaw_failsOn (options : Options) (raw : Text) :
    FailsOn (Comment.controlCharacter? options.tabWidth raw)
      (ofComment options (Comment.ofRaw options.tabWidth raw)) := by
  unfold ofComment ofLines tokenize Comment.controlCharacter?
  generalize ControlCharacter.find? 0 _ = found
  cases found with
  | some e => rfl
  | none =>
    dsimp only
    split <;> trivial

namespace FileDraft

variable (options : Options)

theorem addBefore_failsOn (draft : FileDraft) (raw : Text) (line : Nat) :
    FailsOn (Comment.controlCharacter? options.tabWidth raw)
      (draft.addBefore options raw line) := by
  refine (Documentation.ofRaw_failsOn options raw).bindOk fun d => ?_
  generalize draft.place d line = placed
  obtain ⟨draft, content⟩ := placed
  cases content with
  | none => exact ⟨_, rfl⟩
  | some content =>
    dsimp only
    split <;> exact ⟨_, rfl⟩

theorem addAfter_failsOn (draft : FileDraft) (raw : Text) (line : Nat) :
    FailsOn (Comment.controlCharacter? options.tabWidth raw)
      (draft.addAfter options raw line) := by
  refine (Documentation.ofRaw_failsOn options raw).bindOk fun d => ?_
  generalize draft.place d line = placed
  obtain ⟨draft, content⟩ := placed
  cases content <;> exact ⟨_, rfl⟩

theorem addTrailing_failsOn (draft : FileDraft) (after : Option Text) (line : Nat) :
    FailsOn (after.bind (Comment.controlCharacter? options.tabWidth))
      (match after with
        | some raw => draft.addAfter options raw line
        | none => pure draft) := by
  cases after with
  | some raw => exact addAfter_failsOn options draft raw line
  | none => rfl

theorem addFragment_failsOn (draft : FileDraft) (fragment : SourceFragment) :
    FailsOn (fragment.controlCharacter? options) (draft.addFragment options fragment) := by
  have after (draft : FileDraft) :=
    addTrailing_failsOn options draft fragment.after fragment.line
  unfold addFragment SourceFragment.controlCharacter?
  cases fragment.before with
  | some raw => exact (addBefore_failsOn options draft raw fragment.line).bind fun _ => after _
  | none => exact after _

theorem addAll_unreadable {fragments : List SourceFragment} {draft : FileDraft}
    (unreadable : ∃ f ∈ fragments, (f.controlCharacter? options).isSome)
    (shallow : ∀ line, addAll options draft fragments ≠ .error (.nesting, line)) :
    ∃ good bad later e, fragments = good ++ bad :: later ∧
      (∀ f ∈ good, f.controlCharacter? options = none) ∧ bad.controlCharacter? options = some e ∧
        addAll options draft fragments = .error (.controlCharacter e, bad.line) := by
  induction fragments generalizing draft with
  | nil => simp at unreadable
  | cons fragment rest ih =>
    have failsOn := addFragment_failsOn options draft fragment
    rw [addAll] at shallow ⊢
    generalize draft.addFragment options fragment = result at failsOn shallow
    cases result with
    | ok draft =>
      have readable : fragment.controlCharacter? options = none := failsOn
      have others : ∃ f ∈ rest, (f.controlCharacter? options).isSome := by
        obtain ⟨f, hf, bad⟩ := unreadable
        obtain rfl | later := List.mem_cons.mp hf
        · simp [readable] at bad
        · exact ⟨f, later, bad⟩
      obtain ⟨good, bad, later, e, split, before, found, fails⟩ := ih others shallow
      exact ⟨fragment :: good, bad, later, e, by rw [split, List.cons_append],
        List.forall_mem_cons.mpr ⟨readable, before⟩, found, fails⟩
    | error e =>
      cases e with
      | nesting => exact absurd rfl (shallow fragment.line)
      | controlCharacter e => exact ⟨[], fragment, rest, e, rfl, by simp, failsOn, rfl⟩

end FileDraft

/-! ## Corpora -/

namespace Contribution

/-- What a file contributes that has no fragments. -/
def blank (index : Nat) (file : SourceFile) : Contribution :=
  ⟨index, file.path, file.includes, none, [], []⟩

/-- A file that cannot be read contributes what it contributes without its fragments, and a
report. -/
theorem ofSource?_unreadable {options : Options} {index : Nat} {file : SourceFile}
    {c : Contribution} (h : ofSource? options index file = some c)
    (unreadable : ∃ f ∈ file.fragments, f.Unreadable options) :
    ∃ good bad later e, file.fragments = good ++ bad :: later ∧
      (∀ f ∈ good, ¬f.Unreadable options) ∧ bad.controlCharacter? options = some e ∧
        c = { blank index file with
          diagnostics := [⟨.unreadableFile e.message, some file.path, some bad.line⟩] } := by
  simp only [SourceFragment.unreadable_iff] at unreadable ⊢
  unfold ofSource? at h
  have shallow (line : Nat) :
      FileDraft.addAll options ⟨file.path, [], none, []⟩ file.fragments ≠
        .error (.nesting, line) := by
    intro deep
    simp [deep] at h
  obtain ⟨good, bad, later, e, split, readable, found, fails⟩ :=
    FileDraft.addAll_unreadable options unreadable shallow
  rw [fails] at h
  exact ⟨good, bad, later, e, split, fun f hf => by simp [readable f hf], found,
    (Option.some.inj h).symm⟩

theorem ofSources?_append (options : Options) (before after : List SourceFile) (index : Nat) :
    ofSources? options index (before ++ after) = (do
      let first ← ofSources? options index before
      let others ← ofSources? options (index + before.length) after
      return first ++ others) := by
  induction before generalizing index with
  | nil => simp [ofSources?]
  | cons file rest ih =>
    have number : index + (file :: rest).length = index + 1 + rest.length := by
      rw [List.length_cons]
      omega
    rw [List.cons_append, ofSources?, ofSources?, ih, number]
    simp [Option.bind_assoc]

end Contribution

namespace Collection

/-- A contribution without events is as good as none, but for its report. -/
theorem oneMore_add (c : Collection) (index : Nat) (file : SourceFile) (report : Diagnostic) :
    (c.add (.blank index file)).OneMore report
      (c.add { Contribution.blank index file with diagnostics := [report] }) := by
  let bare := { c with diagnostics := [] }
  exact ⟨bare.add (.blank index file), c.diagnostics, by
    simp [add, after, bare, Contribution.blank], by
    simp [add, after, bare, Contribution.blank]⟩

end Collection

theorem Model.resolved_withReports (m : Model) (reports : List Diagnostic) :
    (m.withReports reports).resolved = m.resolve.1.withReports (reports ++ m.resolve.2) := by
  unfold resolved
  rw [resolve_withReports]
  rfl

theorem Model.OneMore.resolved {report : Diagnostic} {m m' : Model} (h : m.OneMore report m') :
    m.resolved.OneMore report m'.resolved := by
  obtain ⟨earlier, later, found, rfl⟩ := h
  have own : m = m.withReports (earlier ++ later) := by rw [← found]; rfl
  have resolved := m.resolved_withReports (earlier ++ later)
  rw [← own] at resolved
  refine ⟨earlier, later ++ m.resolve.2, by rw [resolved]; simp [withReports], ?_⟩
  rw [resolved]
  exact (m.resolved_withReports _).trans (by simp [withReports])

/-- A file that cannot be read leaves everything as it would be if the file were empty, and there is
one more report, at the first fragment that has a control character in a comment. -/
theorem unreadable_file (options : Options) (before after : List SourceFile) (file : SourceFile)
    (unreadable : ∃ f ∈ file.fragments, f.Unreadable options) {m : Model}
    (h : Model.ofSources? options (before ++ file :: after) = some m) :
    ∃ good bad later e m', file.fragments = good ++ bad :: later ∧
      (∀ f ∈ good, ¬f.Unreadable options) ∧ bad.controlCharacter? options = some e ∧
      Model.ofSources? options (before ++ { file with fragments := [] } :: after) = some m' ∧
      m'.OneMore ⟨.unreadableFile e.message, some file.path, some bad.line⟩ m := by
  obtain ⟨contributions, read, rfl⟩ := Option.map_eq_some_iff.mp h
  rw [Contribution.ofSources?_append, Nat.zero_add] at read
  obtain ⟨first, readFirst, read⟩ := Option.bind_eq_some_iff.mp read
  obtain ⟨others, readOthers, read⟩ := Option.bind_eq_some_iff.mp read
  obtain ⟨next, readNext, readOthers⟩ := Option.bind_eq_some_iff.mp readOthers
  obtain ⟨last, readLast, readOthers⟩ := Option.bind_eq_some_iff.mp readOthers
  obtain rfl : first ++ others = contributions := Option.some.inj read
  obtain rfl : next :: last = others := Option.some.inj readOthers
  obtain ⟨good, bad, later, e, split, readable, found, rfl⟩ :=
    Contribution.ofSource?_unreadable readNext unreadable
  let blank := Contribution.blank before.length file
  let report : Diagnostic := ⟨.unreadableFile e.message, some file.path, some bad.line⟩
  have others : Contribution.ofSources? options 0
      (before ++ { file with fragments := [] } :: after) = some (first ++ blank :: last) := by
    rw [Contribution.ofSources?_append, Nat.zero_add, readFirst, Contribution.ofSources?, readLast]
    rfl
  have collected : (Collection.ofContributions (first ++ blank :: last)).OneMore report
      (Collection.ofContributions (first ++ { blank with diagnostics := [report] } :: last)) := by
    simp only [Collection.ofContributions, List.foldl_append, List.foldl_cons]
    exact ((first.foldl Collection.add {}).oneMore_add before.length file report).map
      (f := fun c => last.foldl Collection.add c) fun found c => Collection.adds_after found c last
  exact ⟨good, bad, later, e, _, split, readable, found, by rw [Model.ofSources?, others]; rfl,
    (collected.toModel options).resolved⟩

/-- A file that defines a group and has a bell in a later comment. -/
def bell : SourceFile :=
  let fragment (name comment : String) (line : Nat) : SourceFragment :=
    ⟨some ⟨.function, name.toList, name.toList, none⟩, some comment.toList, none, line⟩
  ⟨"bell.h".toList, [], [fragment "ring" "/** @defgroup bells Bells */" 1,
    fragment "toll" "/** Tolls\x07. */" 4]⟩

/-- A file that asks for the group. -/
def tower : SourceFile :=
  ⟨"tower.h".toList, [], [⟨some ⟨.function, "climb".toList, "climb".toList, none⟩,
    some "/** @ingroup bells */".toList, none, 2⟩]⟩

theorem bell_unreadable :
    (∃ f ∈ bell.fragments, f.Unreadable {}) ∧
      ∃ m m', Model.ofSources? {} [tower, bell, tower] = some m ∧
        Model.ofSources? {} [tower, { bell with fragments := [] }, tower] = some m' ∧
          ∃ e line, m'.OneMore ⟨.unreadableFile e, some bell.path, some line⟩ m := by
  have unreadable : ∃ f ∈ bell.fragments, f.Unreadable {} := by decide +kernel
  have read : (Model.ofSources? {} [tower, bell, tower]).isSome = true := by decide +kernel
  obtain ⟨m, h⟩ := Option.isSome_iff_exists.mp read
  obtain ⟨_, bad, _, e, m', -, -, -, h', oneMore⟩ :=
    unreadable_file {} [tower] [tower] bell unreadable h
  exact ⟨unreadable, m, m', h, h', e.message, bad.line, oneMore⟩

end DocComment
