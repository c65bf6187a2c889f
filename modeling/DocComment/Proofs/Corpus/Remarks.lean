import DocComment.Corpus.Contribution
import Mathlib.Data.List.Basic
import Mathlib.Data.List.Induction
import Mathlib.Tactic.SplitIfs

/-!
# What comments document

Every comment of a file documents one declaration, the file, or a group; some document nothing.
A comment in front of a declaration is about it, unless it is written as one that stands behind
its member. Every other comment is about the last declaration before it. What all comments about
one subject say is taken together: the first documentation counts, every later one is reported.
-/

set_option autoImplicit false

namespace DocComment

/-! ## Comments of a file -/

/-- The documentation of a raw comment, which is empty if the comment cannot be read. -/
def Documentation.ofRaw (options : Options) (raw : Text) : Documentation :=
  match ofComment options (Comment.ofRaw options.tabWidth raw) with
  | .ok d => d
  | .error _ => ⟨{}, [], []⟩

/-- A comment of a file, where it stands and what it says. -/
structure Remark where
  /-- The number of its fragment. -/
  fragment : Nat
  /-- Whether it stands in front of the fragment. -/
  before : Bool
  line : Nat
  /-- Whether it is written as one that stands behind its member. -/
  trailing : Bool
  content : Documentation

/-- What a comment is about. -/
inductive Subject where
  | file
  | declaration (fragment : Nat)
  deriving DecidableEq

/-- The declaration of a fragment, by its number. -/
def declaration? (fragments : List SourceFragment) (i : Nat) : Option Declaration :=
  fragments[i]?.bind SourceFragment.declaration

/-- The last of the first fragments that has a declaration. -/
def lastDeclared? (fragments : List SourceFragment) : Nat → Option Nat
  | 0 => none
  | n + 1 => if (declaration? fragments n).isSome then some n else lastDeclared? fragments n

namespace Remark

def ofRaw (options : Options) (fragment line : Nat) (before : Bool) (raw : Text) : Remark :=
  ⟨fragment, before, line, (Comment.ofRaw options.tabWidth raw).trailing,
    Documentation.ofRaw options raw⟩

/-- Whether it is about what follows it. -/
def leads (r : Remark) : Bool := r.before && !r.trailing

/-- The number of fragments whose declaration stands before it. -/
def reach (r : Remark) : Nat := if r.before then r.fragment else r.fragment + 1

/-- What it is about. A comment that names a group is about the group, whatever else it says. -/
def subject? (fragments : List SourceFragment) (r : Remark) : Option Subject :=
  if r.content.namesGroup then none
  else if r.content.namesFile then some .file
  else if r.leads then (declaration? fragments r.fragment).map fun _ => .declaration r.fragment
  else (lastDeclared? fragments r.reach).map .declaration

/-- Its documentation, unless that is empty. -/
def doc? (r : Remark) : Option Doc := if r.content.doc.isEmpty then none else some r.content.doc

end Remark

/-- The comments of a fragment, in the order in which they stand. -/
def SourceFragment.remarks (options : Options) (fragment : SourceFragment) (i : Nat) :
    List Remark :=
  (fragment.before.map (Remark.ofRaw options i fragment.line true)).toList ++
    (fragment.after.map (Remark.ofRaw options i fragment.line false)).toList

/-- A fragment can be read if each of its comments can. -/
def SourceFragment.Readable (options : Options) (fragment : SourceFragment) : Prop :=
  ∀ raw ∈ fragment.before.toList ++ fragment.after.toList,
    ∃ d, Documentation.ofComment options (Comment.ofRaw options.tabWidth raw) = .ok d

instance (options : Options) (fragment : SourceFragment) :
    Decidable (fragment.Readable options) :=
  decidable_of_iff (∀ raw ∈ fragment.before.toList ++ fragment.after.toList,
    (Documentation.ofComment options (Comment.ofRaw options.tabWidth raw)).isOk = true) <| by
      have isOk (x : Except CommentError Documentation) : x.isOk = true ↔ ∃ d, x = .ok d := by
        cases x <;> simp [Except.isOk, Except.toBool]
      simp only [isOk, SourceFragment.Readable]

/-- The comments of some fragments. -/
def remarksOf (options : Options) (fragments : List SourceFragment) : List Remark :=
  fragments.zipIdx.flatMap fun (fragment, i) => fragment.remarks options i

/-! ## What is said about a subject -/

namespace Remark

variable (fragments : List SourceFragment)

def about (remarks : List Remark) (s : Subject) : List Remark :=
  remarks.filter fun r => r.subject? fragments = some s

/-- The first documentation of a subject, and all groups that it is put in. -/
def heard (remarks : List Remark) (s : Subject) : BoundDoc :=
  ⟨(about fragments remarks s).findSome? doc?,
    (about fragments remarks s).flatMap fun r => r.content.wantedGroups⟩

def subjectName (path : Text) : Subject → Text
  | .file => path
  | .declaration i => ((declaration? fragments i).map Declaration.name).getD []

/-- What is wrong with the comment itself, where it stands. -/
def found (path : Text) (r : Remark) : List Diagnostic :=
  r.content.diagnostics.map fun e =>
    { e with file := some path, line := some (r.line + e.line.getD 0) }

/-- The report on documentation of a subject that has been documented before. -/
def refused (path : Text) (earlier : List Remark) (r : Remark) : List Diagnostic :=
  match r.subject? fragments with
  | none => []
  | some s =>
    if (heard fragments earlier s).doc.isSome && r.doc?.isSome then
      [⟨.alreadyDocumented (subjectName fragments path s), some path, some r.line⟩]
    else []

/-- The reports on all comments, of which each knows the `earlier` ones. -/
def reports (path : Text) : (earlier : List Remark) → List Remark → List Diagnostic
  | _, [] => []
  | earlier, r :: later =>
    r.found path ++ r.refused fragments path earlier ++ reports path (earlier ++ [r]) later

end Remark

/-- The declaration events of some fragments, with what all comments say about them. -/
def declareEvents (all : List SourceFragment) (remarks : List Remark)
    (fragments : List SourceFragment) : List Event :=
  fragments.zipIdx.filterMap fun (fragment, i) =>
    let said := Remark.heard all remarks (.declaration i)
    fragment.declaration.map fun decl => .declare decl said.doc said.groups fragment.line

def Event.isDeclaration : Event → Bool
  | .declare .. => true
  | _ => false

/-! ## Subjects -/

theorem lastDeclared?_eq_some_iff {fragments : List SourceFragment} {n i : Nat} :
    lastDeclared? fragments n = some i ↔ i < n ∧ (declaration? fragments i).isSome ∧
      ∀ j, i < j → j < n → declaration? fragments j = none := by
  induction n with
  | zero => simp [lastDeclared?]
  | succ n ih =>
    rw [lastDeclared?]
    split_ifs with last
    · constructor
      · intro same
        obtain rfl : n = i := Option.some.inj same
        exact ⟨Nat.lt_succ_self n, last, fun j above below => by omega⟩
      · rintro ⟨below, -, others⟩
        by_contra other
        have above : i < n := by
          have : n ≠ i := fun same => other (congrArg some same)
          omega
        rw [others n above (Nat.lt_succ_self n)] at last
        cases last
    · rw [ih]
      have none : declaration? fragments n = none := by simpa using last
      constructor
      · rintro ⟨below, declares, others⟩
        refine ⟨Nat.lt_succ_of_lt below, declares, fun j above inside => ?_⟩
        rcases Nat.lt_succ_iff_lt_or_eq.mp inside with earlier | rfl
        · exact others j above earlier
        · exact none
      · rintro ⟨below, declares, others⟩
        have other : i ≠ n := by
          rintro rfl
          exact last declares
        exact ⟨by omega, declares, fun j above inside => others j above (Nat.lt_succ_of_lt inside)⟩

namespace Remark

variable {fragments : List SourceFragment} {r : Remark} {i : Nat}

/-- A comment that names no group and no file is about the declaration that it leads to, or about
the one behind which it stands with no declaration in between. -/
theorem subject?_eq_declaration_iff : r.subject? fragments = some (.declaration i) ↔
    r.content.namesGroup = false ∧ r.content.namesFile = false ∧ (declaration? fragments i).isSome ∧
      (r.leads = true ∧ r.fragment = i ∨ r.leads = false ∧ i < r.reach ∧
        ∀ j, i < j → j < r.reach → declaration? fragments j = none) := by
  unfold subject?
  split_ifs with group file leads
  · simp [group]
  · simp [file]
  · constructor
    · intro same
      obtain ⟨decl, declares, subject⟩ := Option.map_eq_some_iff.mp same
      cases subject
      exact ⟨by simpa using group, by simpa using file, by simp [declares], .inl ⟨leads, rfl⟩⟩
    · rintro ⟨-, -, declares, ⟨-, rfl⟩ | ⟨other, -⟩⟩
      · obtain ⟨decl, declares⟩ := Option.isSome_iff_exists.mp declares
        rw [declares]
        rfl
      · rw [leads] at other
        cases other
  · simpa [lastDeclared?_eq_some_iff, group, file, leads] using and_left_comm

theorem subject?_le (h : r.subject? fragments = some (.declaration i)) : i ≤ r.fragment := by
  obtain ⟨-, -, -, ⟨-, rfl⟩ | ⟨-, below, -⟩⟩ := subject?_eq_declaration_iff.mp h
  · exact Nat.le_refl _
  · unfold reach at below
    split_ifs at below <;> omega

/-- A comment that leads to a declaration is about it. -/
theorem subject?_leads (fragments : List SourceFragment)
    (group : r.content.namesGroup = false) (file : r.content.namesFile = false)
    (leads : r.leads = true) (reach : r.reach = i) :
    r.subject? fragments = (declaration? fragments i).map fun _ => .declaration i := by
  have before : r.before = true := by
    rw [Remark.leads, Bool.and_eq_true] at leads
    exact leads.1
  have same : r.fragment = i := by simpa [Remark.reach, before] using reach
  simp [subject?, group, file, leads, same]

/-! ## One more comment -/

section

variable (fragments) (remarks : List Remark) (r : Remark) (s : Subject)

theorem about_append (later : List Remark) : about fragments (remarks ++ later) s =
    about fragments remarks s ++ about fragments later s :=
  List.filter_append ..

/-- No comment is about a declaration that is still to come. -/
theorem heard_later (past : ∀ r ∈ remarks, r.fragment < i) :
    heard fragments remarks (.declaration i) = ⟨none, []⟩ := by
  have none : about fragments remarks (.declaration i) = [] := by
    rw [about, List.filter_eq_nil_iff]
    intro r mem subject
    have := subject?_le (of_decide_eq_true subject)
    exact absurd (past r mem) (by omega)
  simp [heard, none]

theorem heard_of_ne (other : r.subject? fragments ≠ some s) :
    heard fragments (remarks ++ [r]) s = heard fragments remarks s := by
  have none : about fragments [r] s = [] := by simp [about, other]
  simp only [heard, about_append, none, List.append_nil]

theorem heard_of_eq (same : r.subject? fragments = some s) :
    heard fragments (remarks ++ [r]) s =
      ⟨(heard fragments remarks s).doc.or r.doc?,
        (heard fragments remarks s).groups ++ r.content.wantedGroups⟩ := by
  have single : about fragments [r] s = [r] := by simp [about, same]
  simp [heard, about_append, single, List.findSome?_append]

theorem reports_append (path : Text) (earlier : List Remark) :
    reports fragments path earlier (remarks ++ [r]) =
      reports fragments path earlier remarks ++
        (r.found path ++ r.refused fragments path (earlier ++ remarks)) := by
  induction remarks generalizing earlier with
  | nil => simp [reports]
  | cons first rest ih => simp [reports, ih]

end

end Remark

theorem remarksOf_append (options : Options) (done : List SourceFragment) (f : SourceFragment) :
    remarksOf options (done ++ [f]) = remarksOf options done ++ f.remarks options done.length := by
  simp [remarksOf, List.zipIdx_append]

theorem fragment_of_mem_remarks {options : Options} {f : SourceFragment} {i : Nat} {r : Remark}
    (h : r ∈ f.remarks options i) : r.fragment = i := by
  simp only [SourceFragment.remarks, List.mem_append, Option.mem_toList,
    Option.map_eq_some_iff] at h
  rcases h with ⟨raw, -, rfl⟩ | ⟨raw, -, rfl⟩ <;> rfl

theorem fragment_of_mem_remarksOf {options : Options} {done : List SourceFragment} {r : Remark}
    (h : r ∈ remarksOf options done) : r.fragment < done.length := by
  obtain ⟨⟨f, i⟩, mem, inside⟩ := List.mem_flatMap.mp h
  rw [fragment_of_mem_remarks inside]
  have := (List.mem_zipIdx mem).2.1
  rwa [Nat.zero_add] at this

/-! ## Declarations -/

section

variable {all done rest front back : List SourceFragment} {f : SourceFragment} {decl : Declaration}

theorem declaration?_append : declaration? (front ++ f :: back) front.length = f.declaration := by
  simp [declaration?]

/-- The last declaration among the first fragments, and where it stands. -/
theorem lastDeclared?_append (split : all = done ++ rest) :
    lastDeclared? all done.length = none ∧ (∀ g ∈ done, g.declaration = none) ∨
      ∃ front f back decl, done = front ++ f :: back ∧ f.declaration = some decl ∧
        (∀ g ∈ back, g.declaration = none) ∧
          lastDeclared? all done.length = some front.length := by
  induction done using List.reverseRecOn generalizing rest with
  | nil => exact .inl ⟨rfl, by simp⟩
  | append_singleton done g ih =>
    have split' : all = done ++ g :: rest := by simp [split]
    have here : declaration? all done.length = g.declaration := by rw [split', declaration?_append]
    rw [List.length_append, List.length_singleton, lastDeclared?, here]
    cases declares : g.declaration with
    | some decl => exact .inr ⟨done, g, [], decl, rfl, declares, by simp, by simp⟩
    | none =>
      rcases ih split' with ⟨none, others⟩ | ⟨front, f, back, decl, rfl, first, others, last⟩
      · refine .inl ⟨by simpa using none, ?_⟩
        exact List.forall_mem_append.mpr ⟨others, by simpa using declares⟩
      · refine .inr ⟨front, f, back ++ [g], decl, by simp, first, ?_, by simpa using last⟩
        exact List.forall_mem_append.mpr ⟨others, by simpa using declares⟩

variable {remarks remarks' : List Remark}

theorem declareEvents_congr (h : ∀ i < done.length,
    Remark.heard all remarks (.declaration i) = Remark.heard all remarks' (.declaration i)) :
    declareEvents all remarks done = declareEvents all remarks' done := by
  apply List.filterMap_congr
  rintro ⟨g, i⟩ mem
  have bound := (List.mem_zipIdx mem).2.1
  rw [Nat.zero_add] at bound
  simp only [h i bound]

theorem declareEvents_nil (h : ∀ g ∈ done, g.declaration = none) :
    declareEvents all remarks done = [] := by
  rw [declareEvents, List.filterMap_eq_nil_iff]
  rintro ⟨g, i⟩ mem
  simp [h g (List.fst_mem_of_mem_zipIdx mem)]

theorem declareEvents_append (here : f.declaration = some decl)
    (others : ∀ g ∈ back, g.declaration = none) :
    declareEvents all remarks (front ++ f :: back) = declareEvents all remarks front ++
      [.declare decl (Remark.heard all remarks (.declaration front.length)).doc
        (Remark.heard all remarks (.declaration front.length)).groups f.line] := by
  have none : (back.zipIdx (front.length + 1)).filterMap (fun (g, i) =>
      let said := Remark.heard all remarks (.declaration i)
      g.declaration.map fun decl => Event.declare decl said.doc said.groups g.line) = [] := by
    rw [List.filterMap_eq_nil_iff]
    rintro ⟨g, i⟩ mem
    simp [others g (List.fst_mem_of_mem_zipIdx mem)]
  simp [declareEvents, List.zipIdx_append, none, here]

end

end DocComment
