import DocComment.Markup.Doc
import Mathlib

/-!
# The parts of a node

Every container is a list of parts with something around it. A node is visited before its parts,
and edited by itself or through its parts, whatever kind of container it is; what follows rests
on this and not on the kinds.
-/

set_option autoImplicit false

namespace DocComment

section

variable {α β : Type}

def ListItem.map (g : α → β) (item : ListItem α) : ListItem β :=
  ⟨item.depth, item.ordered, item.body.map g⟩

def TableCell.map (g : α → β) (cell : TableCell α) : TableCell β :=
  ⟨cell.span, cell.rowSpan, cell.mergedUp, cell.body.map g⟩

def TableRow.map (g : α → β) (row : TableRow α) : TableRow β :=
  ⟨row.header, row.cells.map (TableCell.map g)⟩

def Table.map (g : α → β) (table : Table α) : Table β :=
  ⟨table.alignment, table.rows.map (TableRow.map g)⟩

def TermEntry.map (g : α → β) (entry : TermEntry α) : TermEntry β :=
  ⟨entry.term.map g, entry.definitions.map (List.map g)⟩

end

namespace Node

/-- The nodes directly inside a node. Copied documentation is not inside. -/
def parts : Node → List Node
  | .paragraph body | .styled _ body | .link _ body | .blockQuote body => body
  | .list _ items => items.flatMap ListItem.body
  | .table t => t.rows.flatMap fun row => row.cells.flatMap TableCell.body
  | .definitionList entries => entries.flatMap fun entry => entry.term ++ entry.definitions.flatten
  | _ => []

def isContainer : Node → Bool
  | .paragraph _ | .styled _ _ | .link _ _ | .blockQuote _ | .list _ _ | .table _
  | .definitionList _ => true
  | _ => false

/-- The same container around other parts. -/
def mapParts (g : Node → Node) : Node → Node
  | .paragraph body => .paragraph (body.map g)
  | .styled style body => .styled style (body.map g)
  | .link url body => .link url (body.map g)
  | .blockQuote body => .blockQuote (body.map g)
  | .list ordered items => .list ordered (items.map (ListItem.map g))
  | .table t => .table (t.map g)
  | .definitionList entries => .definitionList (entries.map (TermEntry.map g))
  | node => node

theorem sizeOf_lt_of_mem_parts {c n : Node} (h : c ∈ n.parts) : sizeOf c < sizeOf n := by
  cases n with
  | paragraph body | styled _ body | link _ body | blockQuote body =>
    have : sizeOf c < sizeOf body := List.sizeOf_lt_of_mem h
    simp
    omega
  | list ordered items =>
    obtain ⟨⟨d, o, body⟩, hi, hc⟩ := List.mem_flatMap.mp h
    have := List.sizeOf_lt_of_mem hi
    have := List.sizeOf_lt_of_mem hc
    simp at *
    omega
  | table t =>
    obtain ⟨alignment, rows⟩ := t
    obtain ⟨⟨header, cells⟩, hr, h'⟩ := List.mem_flatMap.mp h
    obtain ⟨⟨span, rowSpan, up, body⟩, hcell, hc⟩ := List.mem_flatMap.mp h'
    have := List.sizeOf_lt_of_mem hr
    have := List.sizeOf_lt_of_mem hcell
    have := List.sizeOf_lt_of_mem hc
    simp at *
    omega
  | definitionList entries =>
    obtain ⟨⟨term, definitions⟩, he, h'⟩ := List.mem_flatMap.mp h
    have := List.sizeOf_lt_of_mem he
    rcases List.mem_append.mp h' with ht | hd
    · have := List.sizeOf_lt_of_mem ht
      simp at *
      omega
    · obtain ⟨body, hb, hc⟩ := List.mem_flatten.mp hd
      have := List.sizeOf_lt_of_mem hb
      have := List.sizeOf_lt_of_mem hc
      simp at *
      omega
  | _ => simp [parts] at h

/-- What holds of a node whenever it holds of its parts holds of all nodes. -/
@[elab_as_elim]
theorem parts_induction {motive : Node → Prop}
    (step : ∀ n : Node, (∀ c ∈ n.parts, motive c) → motive n) (n : Node) : motive n :=
  step n fun c h =>
    have : sizeOf c < sizeOf n := sizeOf_lt_of_mem_parts h
    parts_induction step c
termination_by sizeOf n

theorem parts_of_not_isContainer {n : Node} (h : n.isContainer = false) : n.parts = [] := by
  cases n <;> simp_all [isContainer, parts]

@[simp] theorem isContainer_mapParts (g : Node → Node) (n : Node) :
    (n.mapParts g).isContainer = n.isContainer := by
  cases n <;> rfl

theorem parts_mapParts (g : Node → Node) (n : Node) : (n.mapParts g).parts = n.parts.map g := by
  cases n with
  | list ordered items => simp [parts, mapParts, ListItem.map, List.map_flatMap, List.flatMap_map]
  | table t =>
    simp [parts, mapParts, Table.map, TableRow.map, TableCell.map, List.map_flatMap,
      List.flatMap_map]
  | definitionList entries =>
    simp [parts, mapParts, TermEntry.map, List.map_flatMap, List.flatMap_map, List.map_flatten]
  | _ => rfl

theorem mapParts_congr {g g' : Node → Node} {n : Node} (h : ∀ c ∈ n.parts, g c = g' c) :
    n.mapParts g = n.mapParts g' := by
  cases n with
  | paragraph body | styled _ body | link _ body | blockQuote body =>
    have same : body.map g = body.map g' := List.map_congr_left h
    simp only [mapParts, same]
  | list ordered items =>
    have same : items.map (ListItem.map g) = items.map (ListItem.map g') := by
      apply List.map_congr_left
      intro item hi
      have inside : item.body.map g = item.body.map g' :=
        List.map_congr_left fun c hc => h c (List.mem_flatMap.mpr ⟨item, hi, hc⟩)
      simp only [ListItem.map, inside]
    simp only [mapParts, same]
  | table t =>
    have same : t.rows.map (TableRow.map g) = t.rows.map (TableRow.map g') := by
      apply List.map_congr_left
      intro row hr
      have cells : row.cells.map (TableCell.map g) = row.cells.map (TableCell.map g') := by
        apply List.map_congr_left
        intro cell hcell
        have inside : cell.body.map g = cell.body.map g' :=
          List.map_congr_left fun c hc =>
            h c (List.mem_flatMap.mpr ⟨row, hr, List.mem_flatMap.mpr ⟨cell, hcell, hc⟩⟩)
        simp only [TableCell.map, inside]
      simp only [TableRow.map, cells]
    simp only [mapParts, Table.map, same]
  | definitionList entries =>
    have same : entries.map (TermEntry.map g) = entries.map (TermEntry.map g') := by
      apply List.map_congr_left
      intro entry he
      have inside : ∀ c ∈ entry.term ++ entry.definitions.flatten, g c = g' c := fun c hc =>
        h c (List.mem_flatMap.mpr ⟨entry, he, hc⟩)
      have term : entry.term.map g = entry.term.map g' :=
        List.map_congr_left fun c hc => inside c (List.mem_append_left _ hc)
      have definitions : entry.definitions.map (List.map g) =
          entry.definitions.map (List.map g') := by
        refine List.map_congr_left fun body hb => List.map_congr_left fun c hc => ?_
        exact inside c (List.mem_append_right _ (List.mem_flatten.mpr ⟨body, hb, hc⟩))
      simp only [TermEntry.map, term, definitions]
    simp only [mapParts, same]
  | _ => rfl

theorem mapParts_mapParts (g g' : Node → Node) (n : Node) :
    (n.mapParts g).mapParts g' = n.mapParts (g' ∘ g) := by
  cases n with
  | list ordered items => simp [mapParts, ListItem.map]
  | table t => simp [mapParts, Table.map, TableRow.map, TableCell.map]
  | definitionList entries => simp [mapParts, TermEntry.map]
  | paragraph body | styled _ body | link _ body | blockQuote body => simp [mapParts]
  | _ => rfl

/-! ## Preorder -/

theorem preorderAll_eq (nodes : List Node) : preorderAll nodes = nodes.flatMap preorder := by
  induction nodes with
  | nil => rfl
  | cons n rest ih => simp [preorderAll, ih]

theorem preorderItems_eq (items : List (ListItem Node)) :
    preorderItems items = (items.flatMap ListItem.body).flatMap preorder := by
  induction items with
  | nil => rfl
  | cons item rest ih => simp [preorderItems, ih, preorderAll_eq]

theorem preorderCells_eq (cells : List (TableCell Node)) :
    preorderCells cells = (cells.flatMap TableCell.body).flatMap preorder := by
  induction cells with
  | nil => rfl
  | cons cell rest ih => simp [preorderCells, ih, preorderAll_eq]

theorem preorderRows_eq (rows : List (TableRow Node)) :
    preorderRows rows =
      (rows.flatMap fun row => row.cells.flatMap TableCell.body).flatMap preorder := by
  induction rows with
  | nil => rfl
  | cons row rest ih => simp [preorderRows, ih, preorderCells_eq]

theorem preorderBodies_eq (bodies : List (List Node)) :
    preorderBodies bodies = bodies.flatten.flatMap preorder := by
  induction bodies with
  | nil => rfl
  | cons body rest ih => simp [preorderBodies, ih, preorderAll_eq]

theorem preorderEntries_eq (entries : List (TermEntry Node)) :
    preorderEntries entries =
      (entries.flatMap fun entry => entry.term ++ entry.definitions.flatten).flatMap preorder := by
  induction entries with
  | nil => rfl
  | cons entry rest ih => simp [preorderEntries, ih, preorderAll_eq, preorderBodies_eq]

theorem preorder_eq (n : Node) : n.preorder = n :: n.parts.flatMap preorder := by
  cases n with
  | paragraph body | styled _ body | link _ body | blockQuote body =>
    simp [preorder, parts, preorderAll_eq]
  | list ordered items => simp [preorder, parts, preorderItems_eq]
  | table t => simp [preorder, parts, preorderRows_eq]
  | definitionList entries => simp [preorder, parts, preorderEntries_eq]
  | _ => rfl

theorem mem_preorder_self (n : Node) : n ∈ n.preorder := by
  rw [preorder_eq]
  exact List.mem_cons_self

end Node

end DocComment
