import DocComment.Block.Blocks
import Mathlib

/-!
# Documents inside a document

Quotes and definition lists hold lines that are read as documents of their own. What some lines
contain depends on nothing but what is found in those, and reading has a result exactly if it has
one for each of them.
-/

set_option autoImplicit false

namespace DocComment

/-- The documents that are read when an item is completed. -/
def Item.inside : Item → List (List Text)
  | .quote _ lines => [lines]
  | .definitions _ lines =>
    (Definition.entriesOf (Definition.partsOf (Text.unlines lines))).flatMap fun entry =>
      entry.bodies.map Definition.bodyLines
  | .node _ | .report _ _ => []

/-- The documents that are read when some lines are. -/
def Blocks.inside (options : Options) (lines : List Text) : List (List Text) :=
  match tokenize lines with
  | .error _ => []
  | .ok tokens => (BlockReader.read options tokens).flatMap Item.inside

namespace Definition

/-- The definitions among some parts. -/
def bodiesOf (parts : List Part) : List Text :=
  (parts.filter (·.kind == .body)).map Part.text

theorem collect_bodies (parts : List Part) :
    (collect parts).1 ++ (collect parts).2.flatMap Entry.bodies = bodiesOf parts := by
  induction parts with
  | nil => rfl
  | cons part rest ih =>
    obtain ⟨kind, t⟩ := part
    cases kind with
    | term => exact ih
    | body => exact congrArg (t :: ·) ih

/-- No definition is lost where they are put together with their terms. -/
theorem flatMap_bodies (parts : List Part) :
    (entriesOf parts).flatMap Entry.bodies = bodiesOf parts := by
  rw [← collect_bodies, entriesOf]
  split
  next none => simp [none]
  next some => simp [some]

end Definition

theorem Item.inside_definitions (line : Nat) (lines : List Text) :
    inside (.definitions line lines) =
      (Definition.bodiesOf (Definition.partsOf (Text.unlines lines))).map Definition.bodyLines := by
  rw [← Definition.flatMap_bodies, List.map_flatMap]
  rfl

theorem isSome_mapM {α β : Type} (f : α → Option β) (l : List α) :
    (l.mapM f).isSome ↔ ∀ a ∈ l, (f a).isSome := by
  induction l with
  | nil => simp
  | cons a rest ih =>
    rw [List.mapM_cons, List.forall_mem_cons, ← ih]
    cases f a with
    | none => simp
    | some b => cases rest.mapM f <;> simp

theorem mapM_of_some {α β : Type} {f g : α → Option β} {l : List α}
    (agree : ∀ a ∈ l, ∀ b, f a = some b → g a = some b) {bs : List β} (read : l.mapM f = some bs) :
    l.mapM g = some bs := by
  induction l generalizing bs with
  | nil => exact read
  | cons a rest ih =>
    obtain ⟨here, later⟩ := List.forall_mem_cons.mp agree
    rw [List.mapM_cons] at read ⊢
    obtain ⟨b, first, read⟩ := Option.bind_eq_some_iff.mp read
    obtain ⟨bs', others, same⟩ := Option.bind_eq_some_iff.mp read
    rw [here b first, ih later others]
    exact same

theorem flatMap_of_mapM {α β γ : Type} {f : α → Option β} {g : β → List γ} {h : α → List γ}
    (agree : ∀ a b, f a = some b → g b = h a) {l : List α} {bs : List β}
    (read : l.mapM f = some bs) : bs.flatMap g = l.flatMap h := by
  induction l generalizing bs with
  | nil =>
    cases read
    rfl
  | cons a rest ih =>
    rw [List.mapM_cons] at read
    obtain ⟨first, here, read⟩ := Option.bind_eq_some_iff.mp read
    obtain ⟨others, later, same⟩ := Option.bind_eq_some_iff.mp read
    cases same
    rw [List.flatMap_cons, List.flatMap_cons, agree a first here, ih later]

section

variable {inner inner' : BlockParser}

theorem Definition.isSome_parse (lines : List Text) : (Definition.parse inner lines).isSome ↔
    ∀ ls ∈ Item.inside (.definitions 0 lines), (inner ls).isSome := by
  have entries (entry : Entry) : (completeEntry inner entry).isSome ↔
      ∀ ls ∈ entry.bodies.map bodyLines, (inner ls).isSome := by
    rw [List.forall_mem_map, ← isSome_mapM, completeEntry]
    cases entry.bodies.mapM fun body => inner (bodyLines body) <;> simp
  rw [Item.inside, List.forall_mem_flatMap]
  simp only [← entries]
  rw [← isSome_mapM, Definition.parse]
  cases (entriesOf (partsOf (Text.unlines lines))).mapM (completeEntry inner) <;> simp

theorem Item.isSome_complete (item : Item) :
    (item.complete inner).isSome ↔ ∀ ls ∈ item.inside, (inner ls).isSome := by
  cases item with
  | definitions line lines =>
    rw [complete, Option.isSome_map]
    exact Definition.isSome_parse lines
  | _ => simp [complete, inside]

theorem Item.isSome_completeAll (items : List Item) :
    (Item.completeAll inner items).isSome ↔
      ∀ ls ∈ items.flatMap Item.inside, (inner ls).isSome := by
  rw [completeAll, Option.isSome_map, isSome_mapM, List.forall_mem_flatMap]
  simp only [Item.isSome_complete]

/-! ## Another way to read what is inside -/

theorem Definition.parse_of_some {lines : List Text}
    (agree : ∀ ls ∈ Item.inside (.definitions 0 lines), ∀ b, inner ls = some b →
      inner' ls = some b) {list : Node × List Diagnostic} (read : parse inner lines = some list) :
    parse inner' lines = some list := by
  have entries {entry : Entry} (known : entry ∈ entriesOf (partsOf (Text.unlines lines)))
      {done : TermEntry Node × List Diagnostic} (h : completeEntry inner entry = some done) :
      completeEntry inner' entry = some done := by
    obtain ⟨bodies, all, same⟩ := Option.bind_eq_some_iff.mp h
    rw [completeEntry, mapM_of_some (fun body mem => agree _ ?_) all]
    · exact same
    · exact List.mem_flatMap.mpr ⟨entry, known, List.mem_map_of_mem mem⟩
  obtain ⟨all, done, same⟩ := Option.bind_eq_some_iff.mp read
  rw [parse, mapM_of_some (fun entry known done h => entries known h) done]
  exact same

theorem Item.complete_of_some {item : Item}
    (agree : ∀ ls ∈ item.inside, ∀ b, inner ls = some b → inner' ls = some b) {b : Blocks}
    (read : item.complete inner = some b) : item.complete inner' = some b := by
  cases item with
  | node n => exact read
  | report line problem => exact read
  | quote line lines =>
    obtain ⟨body, found, same⟩ := Option.map_eq_some_iff.mp read
    exact Option.map_eq_some_iff.mpr ⟨body, agree lines (by simp [inside]) body found, same⟩
  | definitions line lines =>
    obtain ⟨list, found, same⟩ := Option.map_eq_some_iff.mp read
    exact Option.map_eq_some_iff.mpr ⟨list, Definition.parse_of_some agree found, same⟩

theorem Item.completeAll_of_some {items : List Item}
    (agree : ∀ ls ∈ items.flatMap Item.inside, ∀ b, inner ls = some b → inner' ls = some b)
    {b : Blocks} (read : completeAll inner items = some b) : completeAll inner' items = some b := by
  obtain ⟨all, found, same⟩ := Option.map_eq_some_iff.mp read
  refine Option.map_eq_some_iff.mpr ⟨all, mapM_of_some (fun item mem b => ?_) found, same⟩
  exact complete_of_some fun ls inside => agree ls (List.mem_flatMap.mpr ⟨item, mem, inside⟩)

end

namespace Blocks

variable (options : Options)

theorem isSome_parseWithin_succ (levels : Nat) (lines : List Text) :
    (parseWithin options (levels + 1) lines).isSome ↔
      ∀ ls ∈ inside options lines, (parseWithin options levels ls).isSome := by
  rw [parseWithin, inside]
  cases tokenize lines with
  | error e => simp
  | ok tokens => exact Item.isSome_completeAll _

/-- What is found within some levels is found within more. -/
theorem parseWithin_mono {m n : Nat} (le : m ≤ n) {lines : List Text} {b : Blocks}
    (read : parseWithin options m lines = some b) : parseWithin options n lines = some b := by
  induction m generalizing n lines b with
  | zero => cases read
  | succ m ih =>
    have pos : 0 < n := Nat.lt_of_lt_of_le m.succ_pos le
    obtain ⟨n, rfl⟩ := Nat.exists_eq_succ_of_ne_zero (Nat.ne_of_gt pos)
    rw [parseWithin] at read ⊢
    cases tokens : tokenize lines with
    | error e =>
      rw [tokens] at read
      exact read
    | ok tokens' =>
      rw [tokens] at read
      exact Item.completeAll_of_some (fun ls _ b => ih (Nat.le_of_succ_le_succ le)) read

end Blocks

end DocComment
