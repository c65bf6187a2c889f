import DocComment.Block.Definition
import DocComment.Proofs.Block.Behind
import DocComment.Proofs.Text.Position

/-!
# Definition lists in bytes

The terms and definitions of a list are cut out between the position where one was opened and the
position of the next tag. The cursor jumps over the tags and otherwise goes on by whole characters.
-/

set_option autoImplicit false

namespace DocComment

namespace Definition

open DefinitionTag

/-- The part that ends with this text. -/
def ended (kind : Option PartKind) (text : Text) : List Part :=
  match kind with
  | some .term => [⟨.term, Text.trim text⟩]
  | some .body => [⟨.body, text⟩]
  | none => []

theorem Scan.cut_eq (kind : Option PartKind) (s : Scan) :
    s.cut kind = ⟨[], ended kind s.text ++ s.parts⟩ := by
  rcases kind with _ | _ | _ <;> rfl

theorem scan_skip (n depth : Nat) (t : Text) : scan n depth t = scan 0 depth (t.drop n) := by
  induction t generalizing n with
  | nil => cases n <;> rfl
  | cons c t ih =>
    cases n with
    | zero => rfl
    | succ n => exact ih n

/-- Nothing starts or ends within the name of a tag. -/
theorem scan_run {run : Text} (h : '<' ∉ run) (depth : Nat) (t : Text) :
    scan 0 depth (run ++ t) = { scan 0 depth t with text := run ++ (scan 0 depth t).text } := by
  induction run with
  | nil => rfl
  | cons c run ih =>
    obtain ⟨here, later⟩ := not_or.mp (mt List.mem_cons.mpr h)
    rw [List.cons_append, scan, startsWith_of_ne openList_mem_tags (Ne.symm here),
      startsWith_of_ne closeList_mem_tags (Ne.symm here), boundary?_of_ne (Ne.symm here), ite_self,
      ih later]
    rfl

theorem ascii_tags {tag : Text} (h : tag ∈ tags) : ∀ c ∈ tag, c.toNat < 128 := by
  have all : (tags.all fun tag => tag.all fun c => decide (c.toNat < 128)) = true := rfl
  simpa using List.all_eq_true.mp all tag h

/-- A cursor before a tag jumps over it. -/
theorem advance_tag {tag t : Text} (known : tag ∈ tags)
    (starts : Text.startsWithIgnoringCase tag t = true) (before : Text) :
    ∃ run more, t = '<' :: (run ++ more) ∧ '<' ∉ run ∧ tag.length = run.length + 1 ∧
      (Text.Cursor.between before t).advance tag.length =
        .between (before ++ '<' :: run) more := by
  obtain ⟨front, more, rfl, lower, size⟩ := Text.exists_front (ascii_tags known) starts
  obtain ⟨body, rfl, plain⟩ := exists_body known
  cases front with
  | nil => cases lower
  | cons c run =>
    obtain ⟨first, others⟩ := List.cons.inj lower
    obtain rfl : c = '<' := Text.eq_of_toLower first (.inl (by decide))
    refine ⟨run, more, rfl, fun mem => ?_, ?_, ?_⟩
    · obtain ⟨d, inside, same⟩ := List.mem_map.1 (others ▸ List.mem_map_of_mem mem)
      exact (plain d inside).1 same
    · simpa using (congrArg List.length others).symm
    · rw [← size, Text.Cursor.advance_between]

end Definition

namespace Bytewise.Definition

open DocComment.Definition (Part PartKind Scan advance_tag ended exists_tag scan scan_run scan_skip)

/-- What a tag inside the outermost list opens, and how many bytes it has. -/
def boundary? (cursor : Text.Cursor) : Option (Option PartKind × Nat) :=
  if cursor.startsWithIgnoringCase DefinitionTag.term then
    some (some .term, DefinitionTag.term.length)
  else if cursor.startsWithIgnoringCase DefinitionTag.body then
    some (some .body, DefinitionTag.body.length)
  else if cursor.startsWithIgnoringCase DefinitionTag.endTerm then
    some (none, DefinitionTag.endTerm.length)
  else if cursor.startsWithIgnoringCase DefinitionTag.endBody then
    some (none, DefinitionTag.endBody.length)
  else none

theorem boundary?_pos {cursor : Text.Cursor} {kind : Option PartKind} {n : Nat}
    (h : boundary? cursor = some (kind, n)) : 0 < n := by
  unfold boundary? at h
  split_ifs at h <;> cases h <;> exact Nat.succ_pos _

/-- The parts from a cursor on, where `depth` lists are open and the part of this kind has been
read from `start` on. -/
def partsFrom? (start depth : Nat) (kind : Option PartKind) (cursor : Text.Cursor) :
    Option (List Part) :=
  if _ : cursor.atEnd then (Text.dropBytes? start cursor.text).map (ended kind)
  else if cursor.startsWithIgnoringCase DefinitionTag.openList then
    let behind := cursor.advance DefinitionTag.openList.length
    partsFrom? (if depth = 0 then behind.position else start) (depth + 1) kind behind
  else if cursor.startsWithIgnoringCase DefinitionTag.closeList then
    let behind := cursor.advance DefinitionTag.closeList.length
    if depth = 1 then do
      let text ← Text.slice? start cursor.position cursor.text
      let later ← partsFrom? behind.position 0 none behind
      some (ended kind text ++ later)
    else partsFrom? start (depth - 1) kind behind
  else
    match _ : if depth = 1 then boundary? cursor else none with
    | some (next, n) => do
      let text ← Text.slice? start cursor.position cursor.text
      let later ← partsFrom? (cursor.advance n).position depth next (cursor.advance n)
      some (ended kind text ++ later)
    | none => do
      let rest ← cursor.rest?
      partsFrom? start depth kind (cursor.advance (rest.head?.elim 1 Char.utf8Size))
termination_by cursor.left
decreasing_by
  all_goals
    refine Text.Cursor.left_advance (Nat.lt_of_not_le fun le => ‹¬_› (decide_eq_true le)) ?_
  · exact Nat.succ_pos _
  · exact Nat.succ_pos _
  · exact Nat.succ_pos _
  · exact boundary?_pos (Option.ite_none_right_eq_some.1 ‹_›).2
  · cases rest.head? with
    | none => exact Nat.one_pos
    | some c => exact c.utf8Size_pos

def partsOf? (t : Text) : Option (List Part) := partsFrom? 0 0 none (.start t)

theorem startsWith_between {tag : Text} (known : tag ∈ DefinitionTag.tags) (before rest : Text) :
    (Text.Cursor.between before rest).startsWithIgnoringCase tag =
      Text.startsWithIgnoringCase tag rest :=
  Text.Cursor.startsWithIgnoringCase_between (DocComment.Definition.ascii_tags known) before rest

theorem boundary?_between (before rest : Text) :
    boundary? (.between before rest) = DocComment.Definition.boundary? rest := by
  have starts {tag : Text} (known : tag ∈ DefinitionTag.tags) :=
    startsWith_between known before rest
  simp only [DefinitionTag.tags, List.mem_cons] at starts
  simp only [boundary?, starts, true_or, or_true]
  rfl

/-! ## One step

What is cut out of the rest of a text, where a part is open of which `front` has been passed, is
what reading character by character finds there. -/

/-- Whether both ways to read a text at some depth agree. Outside of all lists no part is open. -/
def Agrees (depth : Nat) (rest : Text) : Prop :=
  ∀ kind : Option PartKind, (depth = 0 → kind = none) → ∀ before front : Text,
    partsFrom? (Text.bytes before) depth kind (.between (before ++ front) rest) =
      some (ended kind (front ++ (scan 0 depth rest).text) ++ (scan 0 depth rest).parts)

theorem agrees_nil (depth : Nat) : Agrees depth [] := by
  intro kind outside before front
  rw [partsFrom?]
  simp [Text.Cursor.atEnd, scan]

variable {depth : Nat} {t : Text}

theorem agrees_cons {c : Char}
    (opens : ¬Text.startsWithIgnoringCase DefinitionTag.openList (c :: t) = true)
    (closes : ¬Text.startsWithIgnoringCase DefinitionTag.closeList (c :: t) = true)
    (inside : (if depth = 1 then DocComment.Definition.boundary? (c :: t) else none) = none)
    (agrees : Agrees depth t) : Agrees depth (c :: t) := by
  intro kind outside before front
  have behind := Text.Cursor.advance_between (before ++ front) [c] t
  have later := agrees kind outside before (front ++ [c])
  rw [← List.append_assoc, ← behind] at later
  rw [partsFrom?, dif_neg (by simp [Text.Cursor.atEnd_cons]), boundary?_between,
    startsWith_between DefinitionTag.openList_mem_tags, if_neg opens,
    startsWith_between DefinitionTag.closeList_mem_tags, if_neg closes, scan, if_neg opens,
    if_neg closes, inside]
  simp only [Text.Cursor.rest?_between, Option.bind_eq_bind, Option.bind_some]
  refine later.trans ?_
  simp [Scan.consChar]

theorem agrees_openList (opens : Text.startsWithIgnoringCase DefinitionTag.openList t = true)
    (agrees : Agrees (depth + 1) (t.drop DefinitionTag.openList.length)) : Agrees depth t := by
  intro kind outside before front
  obtain ⟨run, more, rfl, plain, size, behind⟩ := advance_tag DefinitionTag.openList_mem_tags
    opens (before ++ front)
  simp only [size, List.drop_succ_cons, List.drop_left] at agrees
  have inner : depth + 1 = 0 → kind = none := fun zero => absurd zero depth.succ_ne_zero
  rw [partsFrom?, dif_neg (by simp [Text.Cursor.atEnd_cons]),
    startsWith_between DefinitionTag.openList_mem_tags, if_pos opens, behind, scan, if_pos opens,
    scan_run plain]
  by_cases outer : depth = 0
  · obtain rfl := outside outer
    have later := agrees none inner (before ++ front ++ '<' :: run) []
    rw [List.append_nil] at later
    simp only [if_pos outer, Text.Cursor.position_between, later]
    rfl
  · simpa [outer, Scan.consChar] using agrees kind inner before (front ++ '<' :: run)

section

variable (opens : ¬Text.startsWithIgnoringCase DefinitionTag.openList t = true)
include opens

theorem agrees_closeList (closes : Text.startsWithIgnoringCase DefinitionTag.closeList t = true)
    (agrees : Agrees (depth - 1) (t.drop DefinitionTag.closeList.length)) : Agrees depth t := by
  intro kind outside before front
  obtain ⟨run, more, rfl, plain, size, behind⟩ := advance_tag DefinitionTag.closeList_mem_tags
    closes (before ++ front)
  have slice := Text.slice?_bytes before front ('<' :: (run ++ more))
  have skipped : (run ++ more).drop 4 = more := List.drop_left' (Nat.succ_inj.1 size).symm
  simp only [size, List.drop_succ_cons, List.drop_left] at agrees
  rw [partsFrom?, dif_neg (by simp [Text.Cursor.atEnd_cons]),
    startsWith_between DefinitionTag.openList_mem_tags, if_neg opens,
    startsWith_between DefinitionTag.closeList_mem_tags, if_pos closes, behind, scan,
    if_neg opens, if_pos closes]
  split
  next outermost =>
    subst outermost
    have later := agrees none (fun _ => rfl) (before ++ front ++ '<' :: run) []
    rw [List.append_nil, Nat.sub_self] at later
    simp only [Text.Cursor.position_between, Text.Cursor.text_between, slice, later, scan_skip 4,
      skipped, Scan.cut_eq, Option.bind_eq_bind, Option.bind_some, List.append_nil,
      List.nil_append, ended]
  next deep =>
    have inner : depth - 1 = 0 → kind = none := fun zero => outside (by omega)
    rw [scan_run plain]
    simpa [Scan.consChar] using agrees kind inner before (front ++ '<' :: run)

section

variable (closes : ¬Text.startsWithIgnoringCase DefinitionTag.closeList t = true)
include closes

theorem agrees_boundary {next : Option PartKind} {n : Nat}
    (boundary : (if depth = 1 then DocComment.Definition.boundary? t else none) = some (next, n))
    (agrees : Agrees depth (t.drop n)) : Agrees depth t := by
  intro kind outside before front
  obtain ⟨outermost, found⟩ := Option.ite_none_right_eq_some.1 boundary
  obtain ⟨tag, known, starts, rfl⟩ := exists_tag found
  obtain ⟨run, more, rfl, plain, size, behind⟩ := advance_tag known starts (before ++ front)
  have slice := Text.slice?_bytes before front ('<' :: (run ++ more))
  have skipped : (run ++ more).drop (tag.length - 1) = more := List.drop_left' (by omega)
  simp only [size, List.drop_succ_cons, List.drop_left] at agrees
  have later := agrees next (fun zero => by omega) (before ++ front ++ '<' :: run) []
  rw [List.append_nil] at later
  rw [partsFrom?, dif_neg (by simp [Text.Cursor.atEnd_cons]), boundary?_between,
    startsWith_between DefinitionTag.openList_mem_tags, if_neg opens,
    startsWith_between DefinitionTag.closeList_mem_tags, if_neg closes, scan, if_neg opens,
    if_neg closes, boundary]
  simp only [behind, Text.Cursor.position_between, Text.Cursor.text_between, slice, later,
    scan_skip (tag.length - 1), skipped, Scan.cut_eq, Option.bind_eq_bind, Option.bind_some,
    List.append_nil, List.nil_append]

end

end

/-! ## The whole text -/

theorem agrees (depth : Nat) (t : Text) : Agrees depth t := by
  induction size : t.length using Nat.strong_induction_on generalizing depth t with
  | h n ih =>
  subst size
  cases t with
  | nil => exact agrees_nil depth
  | cons c t =>
    have shorter {n : Nat} (pos : 0 < n) : ((c :: t).drop n).length < (c :: t).length := by
      simp only [List.length_drop, List.length_cons]
      omega
    by_cases opens : Text.startsWithIgnoringCase DefinitionTag.openList (c :: t) = true
    · exact agrees_openList opens (ih _ (shorter (Nat.succ_pos _)) _ _ rfl)
    by_cases closes : Text.startsWithIgnoringCase DefinitionTag.closeList (c :: t) = true
    · exact agrees_closeList opens closes (ih _ (shorter (Nat.succ_pos _)) _ _ rfl)
    cases boundary : if depth = 1 then DocComment.Definition.boundary? (c :: t) else none with
    | none => exact agrees_cons opens closes boundary (ih _ (Nat.lt_succ_self _) _ _ rfl)
    | some found =>
      have known := (Option.ite_none_right_eq_some.1 boundary).2
      have pos : 0 < found.2 := boundary?_pos ((boundary?_between [] (c :: t)).trans known)
      exact agrees_boundary opens closes boundary (ih _ (shorter pos) _ _ rfl)

theorem partsOf?_eq (t : Text) : partsOf? t = some (DocComment.Definition.partsOf t) :=
  agrees 0 t none (fun _ => rfl) [] []

end Bytewise.Definition

end DocComment
