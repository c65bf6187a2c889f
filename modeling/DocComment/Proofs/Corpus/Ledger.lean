import DocComment.Proofs.Corpus.Change

/-!
# The ledger of declarations

What declarations leave in a collection: the symbols with their identities, and the reports on
documentation that came too late. Links, groups and scopes leave it alone.
-/

set_option autoImplicit false

namespace DocComment

theorem map_modify {α β : Type} {f : α → α} {g : α → β} {h : β → β}
    (hf : ∀ a, g (f a) = h (g a)) (l : List α) (i : Nat) :
    (l.modify i f).map g = (l.map g).modify i h := by
  induction l generalizing i with
  | nil => simp
  | cons a rest ih => cases i <;> simp [hf, ih]

theorem idxOf?_of_mem {α : Type} [BEq α] [LawfulBEq α] {l : List α} {a : α} (mem : a ∈ l) :
    l.idxOf? a = some (l.idxOf a) :=
  List.idxOf?_eq_some_iff.mpr ⟨List.idxOf_lt_length_of_mem mem, by simp, fun j hj => by
    simpa using List.not_of_lt_findIdx hj⟩

/-- The elements with the key of an earlier one. -/
def repeated {α κ : Type} [BEq κ] (key : α → κ) (l : List α) : List α :=
  (l.mapIdx fun i a => if (l.take i).any (key · == key a) then some a else none).reduceOption

section

variable {α κ : Type} [BEq κ] {key : α → κ}

theorem mem_of_mem_repeated {l : List α} {a : α} (h : a ∈ repeated key l) : a ∈ l := by
  obtain ⟨i, hi, kept⟩ := List.mem_mapIdx.mp (List.reduceOption_mem_iff.mp h)
  split at kept
  · exact Option.some.inj kept ▸ List.getElem_mem hi
  · cases kept

theorem repeated_concat (l : List α) (a : α) :
    repeated key (l ++ [a]) =
      repeated key l ++ if l.any (key · == key a) then [a] else [] := by
  have earlier : (l.mapIdx fun i b =>
        if ((l ++ [a]).take i).any (key · == key b) then some b else none) =
      l.mapIdx fun i b => if (l.take i).any (key · == key b) then some b else none := by
    refine List.mapIdx_eq_mapIdx_iff.mpr fun i hi => ?_
    rw [List.take_append_of_le_length hi.le]
  unfold repeated
  rw [List.mapIdx_append, earlier, List.reduceOption_append]
  congr 1
  rw [List.mapIdx_cons, Nat.zero_add, List.take_left, List.mapIdx_nil]
  split <;> rfl

end

def Problem.isDuplicate : Problem → Bool
  | .alreadyDocumented _ => true
  | _ => false

/-- The reports on documentation of something that is documented already. -/
def Diagnostic.duplicates (reports : List Diagnostic) : List Diagnostic :=
  reports.filter (·.problem.isDuplicate)

/-- A symbol without its place among groups and other symbols. -/
def Symbol.bare (s : Symbol) : Symbol := { s with group := none, owner := none }

structure Ledger where
  identities : List SymbolIdentity
  symbols : List Symbol
  files : Nat
  duplicates : List Diagnostic

namespace Collection

def ledger (c : Collection) : Ledger where
  identities := c.identities
  symbols := c.symbols.map Symbol.bare
  files := c.files.length
  duplicates := Diagnostic.duplicates c.diagnostics

variable (c : Collection)

theorem report_ledger {problem : Problem} (other : problem.isDuplicate = false) (path : Text)
    (line : Option Nat) : (c.report problem path line).ledger = c.ledger := by
  simp [ledger, report, Diagnostic.duplicates, other]

theorem joinGroup_ledger (child parent : Nat) (path : Text) (line : Nat) :
    (c.joinGroup child parent path line).ledger = c.ledger := by
  unfold joinGroup
  split
  · rfl
  · split
    · rfl
    · split
      · rfl
      · exact c.report_ledger rfl path (some line)

theorem joinSymbol_ledger (group symbol : Nat) : (c.joinSymbol group symbol).ledger = c.ledger := by
  have same := map_modify (g := Symbol.bare) (h := id)
    (f := fun s => { s with group := s.group.or (some group) }) (fun _ => rfl) c.symbols symbol
  rw [List.modify_id] at same
  exact congrArg (Ledger.mk _ · _ _) same

theorem connect_ledger (group : Nat) (link : GroupLink) (path : Text) (line : Nat) :
    (c.connect group link path line).ledger = c.ledger := by
  cases link with
  | parentOf child => exact joinGroup_ledger c child group path line
  | member symbol => exact joinSymbol_ledger c group symbol
  | file file => simp [ledger, connect, joinFile, modifyGroup]

theorem request_ledger (group : Text) (link : GroupLink) (path : Text) (line : Nat) :
    (c.request group link path line).ledger = c.ledger := by
  unfold request
  split
  · exact connect_ledger c _ link path line
  · rfl

theorem requestAll_ledger (groups : List Text) (link : GroupLink) (path : Text) (line : Nat) :
    (c.requestAll groups link path line).ledger = c.ledger := by
  induction groups generalizing c with
  | nil => rfl
  | cons group rest ih =>
    exact (ih (c.request group link path line)).trans (request_ledger c group link path line)

theorem serveWaiting_ledger (name : Text) (group : Nat) :
    (c.serveWaiting name group).ledger = c.ledger := by
  have served (ready : List WaitingLink) (c : Collection) :
      (ready.foldl (fun c w => c.connect group w.link w.path w.line) c).ledger = c.ledger := by
    induction ready generalizing c with
    | nil => rfl
    | cons w rest ih => rw [List.foldl_cons, ih, connect_ledger]
  rw [serveWaiting, served]
  rfl

theorem enterGroup_ledger (op : GroupCommand) (name title path : Text) (line : Nat) :
    (c.enterGroup op name title path line).1.ledger = c.ledger := by
  unfold enterGroup
  split
  · rfl
  · cases op with
    | extend => exact c.report_ledger rfl path (some line)
    | define => exact serveWaiting_ledger _ name c.groups.length

end Collection

end DocComment
