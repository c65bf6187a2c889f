import DocComment.Proofs.Block.Fenced
import DocComment.Proofs.Block.Located
import DocComment.Proofs.Block.RoundTrip

/-!
# Text behind a definition list

A definition list takes whole lines. What its last line holds behind the tag that closes it is read
with the list, where it is outside of all terms and definitions, and is lost. On a line of its own
it is a paragraph.
-/

set_option autoImplicit false

namespace DocComment

/-! ## Breaks

A character that no tag holds ends whatever could be read as a tag. -/

namespace Text

theorem startsWithIgnoringCase_break {pattern : Text} {b : Char}
    (h : ∀ c ∈ pattern, c.toLower ≠ b.toLower) (t rest : Text) :
    startsWithIgnoringCase pattern (t ++ b :: rest) = startsWithIgnoringCase pattern t := by
  induction pattern generalizing t with
  | nil => cases t <;> rfl
  | cons c pattern ih =>
    obtain ⟨here, later⟩ := List.forall_mem_cons.mp h
    cases t with
    | nil => simp [startsWithIgnoringCase, here]
    | cons d t => simp [startsWithIgnoringCase, ih later t]

theorem isPrefixOf_break {pattern : Text} {b : Char} (h : b ∉ pattern) (t rest : Text) :
    pattern.isPrefixOf (t ++ b :: rest) = pattern.isPrefixOf t := by
  induction pattern generalizing t with
  | nil => cases t <;> rfl
  | cons c pattern ih =>
    obtain ⟨here, later⟩ := not_or.mp (mt List.mem_cons.mpr h)
    cases t with
    | nil => simp [List.isPrefixOf, Ne.symm here]
    | cons d t => simp [List.isPrefixOf, ih later t]

theorem occurrences_of_not_mem {first : Char} {pattern t : Text} (h : first ∉ t) (skip : Nat) :
    occurrences (first :: pattern) skip t = 0 := by
  induction t generalizing skip with
  | nil => cases skip <;> rfl
  | cons c t ih =>
    obtain ⟨here, later⟩ := not_or.mp (mt List.mem_cons.mpr h)
    cases skip with
    | zero => simp [occurrences, List.isPrefixOf, here, ih later]
    | succ skip => exact ih later skip

/-- Nothing occurs in what follows a break, so nothing more occurs. -/
theorem occurrences_break {first b : Char} {pattern rest : Text} (inside : b ∉ first :: pattern)
    (h : first ∉ rest) (skip : Nat) (t : Text) :
    occurrences (first :: pattern) skip (t ++ b :: rest) =
      occurrences (first :: pattern) skip t := by
  have absent : first ∉ b :: rest :=
    List.not_mem_cons_of_ne_of_not_mem (fun same => inside (same ▸ List.mem_cons_self)) h
  induction t generalizing skip with
  | nil =>
    rw [List.nil_append, occurrences_of_not_mem absent]
    cases skip <;> rfl
  | cons c t ih =>
    cases skip with
    | succ skip => exact ih skip
    | zero =>
      have same := isPrefixOf_break inside (c :: t) rest
      rw [List.cons_append] at same ⊢
      simp only [occurrences, same, ih]

end Text

namespace DefinitionTag

theorem not_mem_lower {t : Text} (h : '<' ∉ t) : '<' ∉ Text.lower t := by
  intro mem
  obtain ⟨c, hc, same⟩ := List.mem_map.mp mem
  exact h (Text.eq_of_toLower same (.inl (by decide)) ▸ hc)

theorem balance_of_not_mem {t : Text} (h : '<' ∉ t) : balance t = 0 := by
  have none (pattern : Text) : Text.occurrences ('<' :: pattern) 0 (Text.lower t) = 0 :=
    Text.occurrences_of_not_mem (not_mem_lower h) 0
  exact (congrArg₂ (fun a b : Nat => (a : Int) - b) (none _) (none _)).trans (sub_self _)

theorem balance_break {rest : Text} (h : '<' ∉ rest) (t : Text) :
    balance (t ++ ' ' :: rest) = balance t := by
  have absent := not_mem_lower h
  have lower : Text.lower (t ++ ' ' :: rest) = Text.lower t ++ ' ' :: Text.lower rest := by
    simp [Text.lower]
  rw [balance, balance, lower, openList, closeList]
  exact congrArg₂ (fun a b : Nat => (a : Int) - b)
    (Text.occurrences_break (by decide) absent 0 _) (Text.occurrences_break (by decide) absent 0 _)

/-! ## Tags -/

/-- Everything that has a meaning inside a list. -/
def tags : List Text := [openList, closeList, term, body, endTerm, endBody]

theorem openList_mem_tags : openList ∈ tags := by simp [tags]

theorem closeList_mem_tags : closeList ∈ tags := by simp [tags]

theorem exists_body {tag : Text} (h : tag ∈ tags) :
    ∃ body, tag = '<' :: body ∧
      ∀ c ∈ body, c.toLower ≠ '<' ∧ c.toLower ≠ ' ' ∧ c.toLower ≠ '\n' := by
  simp only [tags, List.mem_cons, List.not_mem_nil, or_false] at h
  rcases h with rfl | rfl | rfl | rfl | rfl | rfl
  · exact ⟨"dl>".toList, rfl, by simp⟩
  · exact ⟨"/dl>".toList, rfl, by simp⟩
  · exact ⟨"dt>".toList, rfl, by simp⟩
  · exact ⟨"dd>".toList, rfl, by simp⟩
  · exact ⟨"/dt>".toList, rfl, by simp⟩
  · exact ⟨"/dd>".toList, rfl, by simp⟩

theorem startsWith_of_ne {tag : Text} (h : tag ∈ tags) {c : Char} (other : c ≠ '<') (t : Text) :
    Text.startsWithIgnoringCase tag (c :: t) = false := by
  obtain ⟨body, rfl, -⟩ := exists_body h
  have differs : ('<'.toLower == c.toLower) = false :=
    beq_false_of_ne fun same => other (Text.eq_of_toLower same.symm (.inl (by decide)))
  rw [Text.startsWithIgnoringCase, differs, Bool.false_and]

theorem startsWith_break {tag : Text} (h : tag ∈ tags) {b : Char} (hb : b = ' ' ∨ b = '\n')
    (t rest : Text) : Text.startsWithIgnoringCase tag (t ++ b :: rest) =
      Text.startsWithIgnoringCase tag t := by
  obtain ⟨body, rfl, plain⟩ := exists_body h
  refine Text.startsWithIgnoringCase_break ?_ t rest
  refine List.forall_mem_cons.mpr ⟨?_, fun c hc => ?_⟩
  · rcases hb with rfl | rfl <;> simp
  · rcases hb with rfl | rfl
    · exact (plain c hc).2.1
    · exact (plain c hc).2.2

/-- How many lists are open behind a text that starts inside `depth` of them; none if it closes
more than there are. -/
def depth? : Nat → Text → Option Nat
  | depth, [] => some depth
  | depth, c :: t =>
    if Text.startsWithIgnoringCase openList (c :: t) then depth? (depth + 1) t
    else if Text.startsWithIgnoringCase closeList (c :: t) then
      match depth with
      | 0 => none
      | depth + 1 => depth? depth t
    else depth? depth t

theorem depth?_cons_of_ne {c : Char} (h : c ≠ '<') (depth : Nat) (t : Text) :
    depth? depth (c :: t) = depth? depth t := by
  simp [depth?, startsWith_of_ne openList_mem_tags h, startsWith_of_ne closeList_mem_tags h]

theorem depth?_of_not_mem {t : Text} (h : '<' ∉ t) (depth : Nat) :
    depth? depth t = some depth := by
  induction t with
  | nil => rfl
  | cons c t ih =>
    obtain ⟨here, later⟩ := not_or.mp (mt List.mem_cons.mpr h)
    rw [depth?_cons_of_ne (Ne.symm here), ih later]

theorem depth?_break {b : Char} (h : b = ' ' ∨ b = '\n') (depth : Nat) (t rest : Text) :
    depth? depth (t ++ b :: rest) = (depth? depth t).bind (depth? · rest) := by
  have opens (c : Char) (t : Text) :=
    startsWith_break openList_mem_tags h (c :: t) rest
  have closes (c : Char) (t : Text) :=
    startsWith_break closeList_mem_tags h (c :: t) rest
  simp only [List.cons_append] at opens closes
  fun_induction depth? depth t with
  | case1 depth =>
    exact depth?_cons_of_ne (by rcases h with rfl | rfl <;> decide) depth rest
  | case2 depth c t start ih => simp [depth?, opens, start, ih]
  | case3 c t _ close => simp_all [depth?]
  | case4 c t _ close depth ih => simp_all [depth?]
  | case5 depth c t _ _ ih => simp_all [depth?]

/-- The depth changes where a tag starts, not inside of one. -/
theorem depth?_drop {tag t : Text} (h : tag ∈ tags) {c : Char}
    (starts : Text.startsWithIgnoringCase tag (c :: t) = true) (depth : Nat) :
    tag.length - 1 ≤ t.length ∧ depth? depth (t.drop (tag.length - 1)) = depth? depth t := by
  have later {body t : Text} (starts : Text.startsWithIgnoringCase body t = true)
      (plain : ∀ c ∈ body, c.toLower ≠ '<') :
      body.length ≤ t.length ∧ depth? depth (t.drop body.length) = depth? depth t := by
    induction body generalizing t with
    | nil => simp
    | cons c body ih =>
      obtain ⟨here, later⟩ := List.forall_mem_cons.mp plain
      cases t with
      | nil => cases starts
      | cons d t =>
        rw [Text.startsWithIgnoringCase, Bool.and_eq_true, beq_iff_eq] at starts
        have other : d ≠ '<' := by
          rintro rfl
          exact here starts.1
        obtain ⟨room, same⟩ := ih starts.2 later
        exact ⟨Nat.succ_le_succ room, same.trans (depth?_cons_of_ne other depth t).symm⟩
  obtain ⟨body, rfl, plain⟩ := exists_body h
  rw [Text.startsWithIgnoringCase, Bool.and_eq_true] at starts
  exact later starts.2 fun c hc => (plain c hc).1

end DefinitionTag

namespace Definition

open DefinitionTag

theorem boundary?_congr {a b : Text} (same : ∀ tag ∈ tags,
    Text.startsWithIgnoringCase tag a = Text.startsWithIgnoringCase tag b) :
    boundary? a = boundary? b := by
  simp only [tags, List.forall_mem_cons] at same
  simp only [boundary?, same]

theorem exists_tag {t : Text} {kind : Option PartKind} {n : Nat}
    (boundary : boundary? t = some (kind, n)) :
    ∃ tag ∈ tags, Text.startsWithIgnoringCase tag t = true ∧ tag.length = n := by
  have length {found : Option PartKind × Nat} (h : some found = some (kind, n)) : found.2 = n :=
    congrArg Prod.snd (Option.some.inj h)
  unfold boundary? at boundary
  dsimp only at boundary
  split at boundary
  next starts => exact ⟨term, by simp [tags], starts, length boundary⟩
  next =>
    split at boundary
    next starts => exact ⟨body, by simp [tags], starts, length boundary⟩
    next =>
      split at boundary
      next starts => exact ⟨endTerm, by simp [tags], starts, length boundary⟩
      next =>
        split at boundary
        next starts => exact ⟨endBody, by simp [tags], starts, length boundary⟩
        next => cases boundary

theorem boundary?_of_ne {c : Char} (h : c ≠ '<') (t : Text) : boundary? (c :: t) = none := by
  cases boundary : boundary? (c :: t) with
  | none => rfl
  | some found =>
    obtain ⟨tag, known, starts, -⟩ := exists_tag boundary
    rw [startsWith_of_ne known h] at starts
    cases starts

/-- Where no tag starts, no part starts or ends. -/
theorem parts_scan_of_not_mem {t : Text} (h : '<' ∉ t) (skip depth : Nat) :
    (scan skip depth t).parts = [] := by
  induction t generalizing skip with
  | nil => cases skip <;> rfl
  | cons c t ih =>
    obtain ⟨here, later⟩ := not_or.mp (mt List.mem_cons.mpr h)
    cases skip with
    | succ skip => exact ih later skip
    | zero =>
      have none : (if depth = 1 then boundary? (c :: t) else none) = none := by
        rw [boundary?_of_ne (Ne.symm here), ite_self]
      rw [scan, startsWith_of_ne openList_mem_tags (Ne.symm here),
        startsWith_of_ne closeList_mem_tags (Ne.symm here), none]
      exact ih later 0

/-- What follows the last tag of lists that are all closed is in no part. -/
theorem scan_behind {rest : Text} (h : '<' ∉ rest) {skip depth : Nat} {t : Text}
    (room : skip ≤ t.length) (closed : depth? depth (t.drop skip) = some 0) :
    (scan skip depth (t ++ ' ' :: rest)).parts = (scan skip depth t).parts ∧
      (0 < depth → (scan skip depth (t ++ ' ' :: rest)).text = (scan skip depth t).text) := by
  have same (c : Char) (t : Text) : ∀ tag ∈ tags,
      Text.startsWithIgnoringCase tag (c :: (t ++ ' ' :: rest)) =
        Text.startsWithIgnoringCase tag (c :: t) :=
    fun tag known => startsWith_break known (.inl rfl) (c :: t) rest
  have opens' (c : Char) (t : Text) := same c t openList openList_mem_tags
  have closes' (c : Char) (t : Text) := same c t closeList closeList_mem_tags
  fun_induction scan skip depth t with
  | case1 skip depth =>
    obtain rfl : depth = 0 := by simpa [depth?] using closed
    have absent : '<' ∉ ' ' :: rest := by simpa using h
    exact ⟨parts_scan_of_not_mem absent skip 0, fun pos => absurd pos (lt_irrefl 0)⟩
  | case2 skip depth c t ih => exact ih (Nat.le_of_succ_le_succ room) closed
  | case3 depth c t opens ih =>
    have open_ : depth? (depth + 1) t = some 0 := by simpa [depth?, opens] using closed
    obtain ⟨parts, text⟩ := ih (Nat.zero_le _) open_
    rw [List.cons_append, scan, opens', opens, if_pos rfl]
    exact ⟨parts, fun _ => congrArg (c :: ·) (text (Nat.succ_pos depth))⟩
  | case4 c t opens closes ih =>
    have outside : depth? 0 t = some 0 := by simpa [depth?, opens, closes] using closed
    obtain ⟨room, drop⟩ := depth?_drop closeList_mem_tags closes 0
    obtain ⟨parts, -⟩ := ih room (drop.trans outside)
    rw [List.cons_append, scan, opens', closes', if_neg opens, if_pos closes, if_pos rfl]
    exact ⟨parts, fun _ => rfl⟩
  | case5 depth c t opens closes deep ih =>
    rcases depth with - | - | depth
    · simp [depth?, opens, closes] at closed
    · exact absurd rfl deep
    · have inner : depth? (depth + 1) t = some 0 := by simpa [depth?, opens, closes] using closed
      obtain ⟨parts, text⟩ := ih (Nat.zero_le _) inner
      rw [List.cons_append, scan, opens', closes', if_neg opens, if_pos closes, if_neg deep]
      exact ⟨parts, fun _ => congrArg (c :: ·) (text (Nat.succ_pos depth))⟩
  | case6 depth c t opens closes kind n boundary ih =>
    have here : depth? depth t = some 0 := by simpa [depth?, opens, closes] using closed
    have outermost : depth = 1 := by
      by_contra deep
      simp [deep] at boundary
    rw [if_pos outermost] at boundary
    obtain ⟨tag, known, starts, rfl⟩ := exists_tag boundary
    obtain ⟨room, drop⟩ := depth?_drop known starts depth
    obtain ⟨parts, text⟩ := ih room (drop.trans here)
    have same' := (boundary?_congr (same c t)).trans boundary
    have whole : scan (tag.length - 1) depth (t ++ ' ' :: rest) = scan (tag.length - 1) depth t :=
      congrArg₂ Scan.mk (text (outermost ▸ Nat.one_pos)) parts
    rw [List.cons_append, scan, opens', closes', if_neg opens, if_neg closes, if_pos outermost,
      same']
    dsimp only
    rw [whole]
    exact ⟨rfl, fun _ => rfl⟩
  | case7 depth c t opens closes none ih =>
    have here : depth? depth t = some 0 := by simpa [depth?, opens, closes] using closed
    obtain ⟨parts, text⟩ := ih (Nat.zero_le _) here
    rw [List.cons_append, scan, opens', closes', if_neg opens, if_neg closes,
      boundary?_congr (same c t), none]
    exact ⟨parts, fun inside => congrArg (c :: ·) (text inside)⟩

theorem partsOf_behind {rest t : Text} (h : '<' ∉ rest) (closed : depth? 0 t = some 0) :
    partsOf (t ++ ' ' :: rest) = partsOf t :=
  (scan_behind h (Nat.zero_le _) closed).1

theorem parse_congr {a b : List Text} (same : partsOf (Text.unlines a) = partsOf (Text.unlines b))
    (inner : BlockParser) : parse inner a = parse inner b := by
  rw [parse, parse, same]

end Definition

/-! ## Plain lines -/

namespace Token

/-- A line as a definition list collects it. -/
def shown (t : Text) : Text := if Text.isBlank t then [] else t

theorem spelling_plain_eq (line : Nat) (t : Text) : (plain line t).spelling = shown t := by
  unfold plain shown
  split
  · rfl
  · exact spelling_of_ne (ofText_ne_blank t)

theorem written_uncut {lines : List Text} (uncut : ∀ t ∈ lines, t.Uncut) (line : Nat) :
    written line none lines = (lines.mapIdx fun i t => plain (line + i) t, none) := by
  induction lines generalizing line with
  | nil => rfl
  | cons t rest ih =>
    obtain ⟨here, later⟩ := List.forall_mem_cons.mp uncut
    rw [written, ofLine_uncut here, ih later, List.mapIdx_cons]
    simp [Nat.add_assoc, Nat.add_comm 1]

theorem whole_uncut {t : Text} (uncut : t.Uncut) : whole none t = true := by
  have front : (Segments.ofLine t).text = t := congrArg Segments.text uncut
  unfold whole flush
  cases blank : Text.isBlank t <;> simp [front, blank]

theorem allWhole_uncut {lines : List Text} (uncut : ∀ t ∈ lines, t.Uncut) :
    allWhole none lines = true := by
  induction lines with
  | nil => rfl
  | cons t rest ih =>
    obtain ⟨here, later⟩ := List.forall_mem_cons.mp uncut
    rw [allWhole, whole_uncut here, ofLine_uncut here, ih later]
    rfl

theorem emptied_uncut {lines : List Text} (uncut : ∀ t ∈ lines, t.Uncut) :
    emptied none lines = lines.map shown := by
  induction lines with
  | nil => rfl
  | cons t rest ih =>
    obtain ⟨here, later⟩ := List.forall_mem_cons.mp uncut
    rw [emptied, ofLine_uncut here, ih later]
    rfl

end Token

namespace DefinitionTag

theorem isBlank_not_mem {t : Text} (blank : Text.isBlank t = true) : '<' ∉ t :=
  fun mem => absurd (List.all_eq_true.mp blank '<' mem) (by decide)

theorem balance_shown (t : Text) : balance (Token.shown t) = balance t := by
  unfold Token.shown
  split
  next blank => exact (balance_of_not_mem (isBlank_not_mem blank)).symm
  next => rfl

theorem depth?_shown (depth : Nat) (t : Text) : depth? depth (Token.shown t) = depth? depth t := by
  unfold Token.shown
  split
  next blank => exact (depth?_of_not_mem (isBlank_not_mem blank) depth).symm
  next => rfl

theorem unlines_cons (t : Text) {rest : List Text} (nonempty : rest ≠ []) :
    Text.unlines (t :: rest) = t ++ '\n' :: Text.unlines rest := by
  obtain ⟨next, rest, rfl⟩ := List.exists_cons_of_ne_nil nonempty
  simp [Text.unlines, List.intercalate_cons_cons]

theorem depth?_unlines_shown (lines : List Text) (depth : Nat) :
    depth? depth (Text.unlines (lines.map Token.shown)) = depth? depth (Text.unlines lines) := by
  induction lines generalizing depth with
  | nil => rfl
  | cons t rest ih =>
    cases rest with
    | nil => simpa [Text.unlines] using depth?_shown depth t
    | cons next rest =>
      rw [List.map_cons, unlines_cons _ (by simp), unlines_cons _ (by simp),
        depth?_break (.inr rfl), depth?_break (.inr rfl), depth?_shown]
      exact congrArg _ (funext fun depth => ih depth)

/-- Where lists close is a matter of the balances of the lines. -/
theorem ClosedByLast.congr {a b : List Text} (same : a.map balance = b.map balance)
    (h : ClosedByLast a) : ClosedByLast b := by
  have length : a.length = b.length := by simpa using congrArg List.length same
  have take (n : Nat) : opened (a.take n) = opened (b.take n) := by
    rw [opened, opened, List.map_take, List.map_take, same]
  refine ⟨?_, fun n hn pos => ?_⟩
  · have whole := h.1
    rwa [opened, same] at whole
  · rw [← take]
    exact h.2 n (length ▸ hn) pos

theorem ClosedByLast.shown {lines : List Text} (h : ClosedByLast lines) :
    ClosedByLast (lines.map Token.shown) :=
  h.congr (by simp [balance_shown])

theorem ClosedByLast.behind {init : List Text} {last rest : Text} (plain : '<' ∉ rest)
    (h : ClosedByLast (init ++ [last])) : ClosedByLast (init ++ [last ++ ' ' :: rest]) :=
  h.congr (by simp [balance_break plain])

end DefinitionTag

/-! ## Documents -/

namespace Blocks

variable {options : Options}

/-- The lines of a document inside are pieces of the lines around it. -/
theorem exists_pieces {lines inner : List Text} (uncut : ∀ t ∈ lines, t.Uncut)
    (contains : Contains options lines inner) :
    ∃ start, Text.Pieces lines start inner := by
  rw [Contains, inside_eq] at contains
  obtain ⟨item, listed, inside⟩ := List.mem_flatMap.mp contains
  have stands := items_standIn uncut item listed
  cases item with
  | node n => cases inside
  | report line problem => cases inside
  | quote start quoted =>
    obtain rfl := List.mem_singleton.mp inside
    exact ⟨start, stands⟩
  | definitions start list =>
    rw [Item.inside_definitions, ← Definition.snd_places, List.map_map] at inside
    obtain ⟨⟨place, body⟩, known, rfl⟩ := List.mem_map.mp inside
    have copies := body_pieces uncut listed known
    exact ⟨start + place, stands.trans copies⟩

/-- Without command marks nothing is cut, at no depth. -/
theorem plain_of_unmarked {lines : List Text} (unmarked : ∀ t ∈ lines, t.Unmarked) :
    Plain options lines := by
  intro inner path
  have all : ∀ t ∈ inner, t.Unmarked := by
    induction path with
    | refl => exact unmarked
    | tail _ step ih =>
      obtain ⟨start, pieces⟩ := exists_pieces (fun t mem => (ih t mem).uncut) step
      intro u mem c hc
      obtain ⟨i, known⟩ := List.mem_iff_getElem?.mp mem
      obtain ⟨t, line, piece⟩ := pieces i u known
      exact ih t (List.mem_of_getElem? line) c (piece.subset hc)
  exact fun t mem => (all t mem).uncut

theorem isSome_parse_unmarked {lines : List Text} (unmarked : ∀ t ∈ lines, t.Unmarked) :
    (parse options lines).isSome :=
  isSome_parseWithin (fun inner path => takesTwice_plain (plain_of_unmarked unmarked inner path))
    Nat.lt_two_pow_self

end Blocks

open DefinitionTag

theorem startsList_append {t : Text} (h : startsList t = true) (more : Text) :
    startsList (t ++ more) = true ∧ Definition.margin (t ++ more) = Definition.margin t := by
  obtain ⟨d, l, rest, trimmed, first, second⟩ := startsList_iff.mp h
  have longer : Text.trimStart (t ++ more) = Text.trimStart t ++ more := by
    have shown : (t.dropWhile Text.isSpace).isEmpty = false := by
      change (Text.trimStart t).isEmpty = false
      rw [trimmed]
      rfl
    rw [Text.trimStart, List.dropWhile_append, shown]
    rfl
  refine ⟨startsList_iff.mpr ⟨d, l, rest ++ more, ?_, first, second⟩, ?_⟩
  · rw [longer, trimmed]
    rfl
  · rw [Definition.margin, Definition.margin, longer, Text.bytes_append, Text.bytes_append,
      Nat.add_sub_add_right]

/-- Lines without commands that a list takes up: the first opens it, its tags are nested, and they
are all closed at the end of the last line for the first time. -/
structure ClosedList (options : Options) (lines : List Text) : Prop where
  unmarked : ∀ t ∈ lines, t.Unmarked
  opens : ∃ first ∈ lines.head?,
    startsList first = true ∧ Definition.margin first < options.verbatimIndent
  nested : depth? 0 (Text.unlines lines) = some 0
  closes : ClosedByLast lines

namespace ClosedList

variable {options : Options} {lines init : List Text} {last : Text}

theorem uncut (h : ClosedList options lines) : ∀ t ∈ lines, t.Uncut :=
  fun t mem => (h.unmarked t mem).uncut

theorem definitionLines (h : ClosedList options lines) : DefinitionLines options lines := by
  have tokens := Token.written_uncut h.uncut 0
  refine ⟨?_, h.opens, ?_, fun token mem => ?_, Token.allWhole_uncut h.uncut⟩
  · exact ControlCharacter.find?_eq_none (fun t mem c hc => (h.unmarked t mem c hc).2) 0
  · have spellings : (Token.written 0 none lines).1.map Token.spelling =
        lines.map Token.shown := by
      rw [tokens]
      refine List.ext_getElem? fun i => ?_
      simp [Function.comp_def, Token.spelling_plain_eq]
    rw [spellings]
    exact h.closes.shown
  · rw [tokens] at mem
    obtain ⟨i, inside, rfl⟩ := List.mem_mapIdx.mp mem
    exact Token.repeats_eq_false (Token.isFenced_plain _ _)

theorem last_shown (h : ClosedList options (init ++ [last])) : Text.isBlank last = false := by
  cases blank : Text.isBlank last with
  | false => rfl
  | true =>
    have nothing := balance_of_not_mem (isBlank_not_mem blank)
    obtain ⟨first, start, tag, -⟩ := h.opens
    rcases init.eq_nil_or_concat' with rfl | ⟨front, line, rfl⟩
    · obtain rfl : last = first := by simpa using start
      simp [isBlank_of_startsList tag] at blank
    · -- the lists would be closed by the line before
      have before := h.closes.2 (front ++ [line]).length (by simp) (by simp)
      have whole := h.closes.1
      rw [List.take_left] at before
      simp [opened, nothing] at before whole
      omega

theorem unlines_behind (init : List Text) (last more : Text) :
    Text.unlines (init ++ [last ++ more]) = Text.unlines (init ++ [last]) ++ more := by
  induction init with
  | nil => simp [Text.unlines]
  | cons t rest ih =>
    rw [List.cons_append, List.cons_append, unlines_cons t (by simp), unlines_cons t (by simp), ih]
    simp

theorem behind (h : ClosedList options (init ++ [last])) (w : Phrase) :
    ClosedList options (init ++ [last ++ ' ' :: w.text]) := by
  have absent : '<' ∉ w.text := w.not_mem rfl (by decide)
  refine ⟨?_, ?_, ?_, h.closes.behind absent⟩
  · have space : Text.Unmarked (' ' :: w.text) := .cons (by decide) w.unmarked
    obtain ⟨front, here⟩ := List.forall_mem_append.mp h.unmarked
    refine List.forall_mem_append.mpr ⟨front, ?_⟩
    rw [List.forall_mem_singleton] at here ⊢
    exact here.append space
  · obtain ⟨first, start, tag, shallow⟩ := h.opens
    cases init with
    | cons t rest => exact ⟨first, start, tag, shallow⟩
    | nil =>
      obtain rfl : last = first := by simpa using start
      obtain ⟨tag', margin⟩ := startsList_append tag (' ' :: w.text)
      exact ⟨_, rfl, tag', margin ▸ shallow⟩
  · rw [unlines_behind, depth?_break (.inl rfl), h.nested]
    exact depth?_of_not_mem absent 0

/-- The list is read without the text behind it. -/
theorem parse_behind (h : ClosedList options (init ++ [last])) (w : Phrase) (inner : BlockParser) :
    Definition.parse inner (Token.emptied none (init ++ [last ++ ' ' :: w.text])) =
      Definition.parse inner (Token.emptied none (init ++ [last])) := by
  have longer := h.behind w
  have closed : depth? 0 (Text.unlines (init.map Token.shown ++ [last])) = some 0 := by
    have shown := (depth?_unlines_shown (init ++ [last]) 0).trans h.nested
    simpa [Token.shown, h.last_shown] using shown
  rw [Token.emptied_uncut h.uncut, Token.emptied_uncut longer.uncut]
  refine Definition.parse_congr ?_ inner
  simp only [List.map_append, List.map_singleton, Token.shown, h.last_shown, longer.last_shown]
  simp only [Bool.false_eq_true, if_false]
  exact (congrArg Definition.partsOf (unlines_behind _ last _)).trans
    (Definition.partsOf_behind (w.not_mem rfl (by decide)) closed)

end ClosedList

namespace DefinitionLines

variable {options : Options} {lines : List Text}

theorem parseWithin_succ (h : DefinitionLines options lines) (levels : Nat) :
    Blocks.parseWithin options (levels + 1) lines =
      (Definition.parse (Blocks.parseWithin options levels) (Token.emptied none lines)).map
        fun list => ⟨[list.1], list.2⟩ := by
  have tokens : tokenize lines = .ok (Token.ofLines 0 none lines) := by
    rw [tokenize, h.clean]
  rw [Blocks.parseWithin, tokens]
  dsimp only
  rw [h.read_eq, Item.completeAll_definitions]

/-- A paragraph on the line after a list. -/
theorem parseWithin_phrase (h : DefinitionLines options lines)
    (unmarked : ∀ t ∈ lines, t.Unmarked) (w : Phrase) (levels : Nat) :
    Blocks.parseWithin options (levels + 1) (lines ++ [w.text]) =
      (Definition.parse (Blocks.parseWithin options levels) (Token.emptied none lines)).map
        fun list => ⟨[list.1, .paragraph [.text w.text]], list.2⟩ := by
  have all : ∀ t ∈ lines ++ [w.text], t.Unmarked :=
    List.forall_mem_append.mpr ⟨unmarked, by simpa using w.unmarked⟩
  have tokens : tokenize (lines ++ [w.text]) =
      .ok ((Token.written 0 none lines).1 ++ [Token.plain lines.length w.text]) := by
    have uncut : ∀ t ∈ lines, t.Uncut := fun t mem => (unmarked t mem).uncut
    rw [tokenize_unmarked all, Token.ofLines_append, Token.written_uncut uncut,
      Token.ofLines_unmarked w.unmarked]
    simp [Token.ofLines]
  have items : BlockReader.read options
      ((Token.written 0 none lines).1 ++ [Token.plain lines.length w.text]) =
        [.definitions 0 (Token.emptied none lines), .node (.paragraph [.text w.text])] := by
    obtain ⟨first, -, -, shallow⟩ := h.opens
    have text := Nat.not_le.mpr (Nat.zero_lt_of_lt shallow)
    have body : Item.paragraph [w.text] = [.node (.paragraph [.text w.text])] := by
      simp [Item.paragraph, w.parse_line]
    rw [BlockReader.read, List.foldl_append, h.foldl_written, BlockReader.plain_phrase]
    simp [BlockReader.feed, BlockReader.outside, BlockReader.plainLine, BlockReader.begin,
      BlockReader.items, BlockReader.close, OpenBlock.items, BlockReader.startsList_phrase, text,
      body]
  have shift : Diagnostic.shift 0 = id := funext Diagnostic.shift_zero
  rw [Blocks.parseWithin, tokens]
  dsimp only
  rw [items]
  cases read : Definition.parse (Blocks.parseWithin options levels) (Token.emptied none lines) <;>
    simp [Item.completeAll, Item.complete, read, shift, Blocks.concat, Blocks.append]

end DefinitionLines

/-- A list ends with its last line: one more line is read by itself, but text behind the list on
the same line leaves no trace. -/
theorem text_behind_list_lost {options : Options} {init : List Text} {last : Text}
    (list : ClosedList options (init ++ [last])) (w : Phrase) :
    ∃ node diagnostics, Blocks.parse options (init ++ [last]) = some ⟨[node], diagnostics⟩ ∧
      Blocks.parse options (init ++ [last ++ ' ' :: w.text]) = some ⟨[node], diagnostics⟩ ∧
      Blocks.parse options (init ++ [last, w.text]) =
        some ⟨[node, .paragraph [.text w.text]], diagnostics⟩ := by
  have found : (Blocks.parse options (init ++ [last])).isSome :=
    Blocks.isSome_parse_unmarked list.unmarked
  obtain ⟨blocks, read⟩ := Option.isSome_iff_exists.mp found
  obtain ⟨levels, enough⟩ := Nat.exists_eq_succ_of_ne_zero
    (Blocks.levels_ne_zero (init ++ [last]))
  have whole := read
  rw [Blocks.parse, enough, list.definitionLines.parseWithin_succ] at whole
  obtain ⟨⟨node, diagnostics⟩, found, rfl⟩ := Option.map_eq_some_iff.mp whole
  -- more lines need no fewer levels, and what is inside the list is the same
  have more (lines : List Text)
      (longer : Text.bytes (init ++ [last]).flatten ≤ Text.bytes lines.flatten) :
      ∃ more, Blocks.levels lines = more + 1 ∧
        Definition.parse (Blocks.parseWithin options more) (Token.emptied none (init ++ [last])) =
          some (node, diagnostics) := by
    obtain ⟨more, enough'⟩ := Nat.exists_eq_succ_of_ne_zero (Blocks.levels_ne_zero lines)
    have le : Blocks.levels (init ++ [last]) ≤ Blocks.levels lines :=
      Nat.pow_le_pow_right Nat.two_pos longer
    refine ⟨more, enough', Definition.parse_of_some (fun ls _ b => ?_) found⟩
    exact Blocks.parseWithin_mono options (by omega)
  refine ⟨node, diagnostics, read, ?_, ?_⟩
  · obtain ⟨levels, enough, found⟩ := more (init ++ [last ++ ' ' :: w.text]) (by simp)
    rw [Blocks.parse, enough, (list.behind w).definitionLines.parseWithin_succ, list.parse_behind,
      found]
    rfl
  · obtain ⟨levels, enough, found⟩ := more (init ++ [last] ++ [w.text]) (by simp)
    have lines : init ++ [last, w.text] = init ++ [last] ++ [w.text] := by simp
    rw [lines, Blocks.parse, enough,
      list.definitionLines.parseWithin_phrase list.unmarked, found]
    rfl

/-- A list inside a definition, closed on the line that closes the list around it. -/
def innerList : List Text := ["<dl><dt>a</dt> b".toList]

def innerListEnd : Text := "<dd>c <DL><dd>d</dd></DL> e</dd></dl>".toList

def oneWord : Phrase := ⟨⟨['s', 'o'], by simp, by simp⟩, []⟩

theorem innerList_behind : ClosedList {} (innerList ++ [innerListEnd]) ∧
    ∃ node diagnostics,
      Blocks.parse {} (innerList ++ [innerListEnd]) = some ⟨[node], diagnostics⟩ ∧
      Blocks.parse {} (innerList ++ [innerListEnd ++ ' ' :: oneWord.text]) =
        some ⟨[node], diagnostics⟩ ∧
      Blocks.parse {} (innerList ++ [innerListEnd, oneWord.text]) =
        some ⟨[node, .paragraph [.text oneWord.text]], diagnostics⟩ := by
  have list : ClosedList {} (innerList ++ [innerListEnd]) :=
    ⟨by decide +kernel, by decide +kernel, by decide +kernel, by decide +kernel⟩
  exact ⟨list, text_behind_list_lost list oneWord⟩

/-- The text is not kept as a paragraph of its own. -/
theorem word_behind_list_lost :
    ¬ ∀ (options : Options) (init : List Text) (last : Text),
      ClosedList options (init ++ [last]) →
      ∀ (w : Phrase) (blocks : Blocks), Blocks.parse options (init ++ [last]) = some blocks →
        Blocks.parse options (init ++ [last ++ ' ' :: w.text]) =
          some ⟨blocks.nodes ++ [.paragraph [.text w.text]], blocks.diagnostics⟩ := by
  intro kept
  have list : ClosedList {} ([] ++ ["<dl><dt>a</dt></dl>".toList]) :=
    ⟨by decide +kernel, by decide +kernel, by decide +kernel, by decide +kernel⟩
  have alone : (Blocks.parse {} ["<dl><dt>a</dt></dl>".toList]).map (fun b => b.nodes.length) =
      some 1 := by decide +kernel
  have spelled : "<dl><dt>a</dt></dl>".toList ++ ' ' :: oneWord.text =
      "<dl><dt>a</dt></dl> so".toList := by decide +kernel
  have behind : (Blocks.parse {} ["<dl><dt>a</dt></dl> so".toList]).map
      (fun b => b.nodes.length) = some 1 := by decide +kernel
  obtain ⟨blocks, read, one⟩ := Option.map_eq_some_iff.mp alone
  have both := kept {} [] _ list oneWord blocks read
  rw [List.nil_append, spelled] at both
  rw [both] at behind
  simp [one] at behind

end DocComment
