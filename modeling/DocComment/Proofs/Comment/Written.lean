import DocComment.Proofs.Comment.Clean

/-!
# Comments written back

Clean lines can be written as a comment again, behind slashes or with stars in a block. Its
leaders come off as they were put on, so the lines are read back as they are.
-/

set_option autoImplicit false

namespace DocComment.Comment

inductive Layout where
  /-- Three slashes in front of every line. -/
  | slashes
  /-- The same for a comment that stands behind what it documents. -/
  | trailingSlashes
  /-- A block with a star in front of every line. -/
  | block

/-- How some lines are written. -/
def Layout.write : Layout → List Text → Text
  | .slashes, ls => Text.unlines (ls.map ("/// ".toList ++ ·))
  | .trailingSlashes, ls => Text.unlines (ls.map ("///< ".toList ++ ·))
  | .block, ls => Text.unlines ("/**".toList :: ls.map (" * ".toList ++ ·) ++ [" */".toList])

/-- A line behind its leader: a space comes first, if there is anything. -/
def indented (l : Text) : Text := if l.isEmpty then [] else ' ' :: l

theorem trimEnd_space {l : Text} (clean : CleanLine l) :
    Text.trimEnd (' ' :: l) = indented l := by
  rcases l.eq_nil_or_concat' with rfl | ⟨front, c, rfl⟩
  · rfl
  · rw [Text.trimEnd_eq_self]
    · simp [indented]
    · intro d last
      apply clean.tail d
      simpa [List.getLast?_cons] using last

/-! ## Leaders -/

section

variable {l : Text} (clean : CleanLine l) (trailing : Bool)

include clean

theorem stripLine_slashes :
    stripLine ⟨trailing, false⟩ ("/// ".toList ++ l) = (⟨trailing, false⟩, indented l) := by
  rw [← trimEnd_space clean]
  rfl

theorem stripLine_trailingSlashes :
    stripLine ⟨trailing, false⟩ ("///< ".toList ++ l) = (⟨true, false⟩, indented l) := by
  rw [← trimEnd_space clean]
  rfl

theorem stripLine_star (ends : ¬"*/".toList <:+ l) :
    stripLine ⟨trailing, true⟩ (" * ".toList ++ l) = (⟨trailing, true⟩, indented l) := by
  have opened : stripOpener ⟨trailing, true⟩ (Text.trimStart (" * ".toList ++ l)) =
      (⟨trailing, true⟩, ' ' :: l) := rfl
  have stays : Text.dropSuffix? "*/".toList (indented l) = none := by
    rw [Option.eq_none_iff_forall_ne_some]
    intro body cut
    rw [Text.dropSuffix?_eq_some, indented] at cut
    split_ifs at cut
    · simp at cut
    · cases body with
      | nil => simp at cut
      | cons c body =>
        apply ends
        obtain ⟨-, rfl⟩ := List.cons.inj cut
        exact List.suffix_append _ _
  have closed : stripCloser ⟨trailing, true⟩ (' ' :: l) = (⟨trailing, true⟩, ' ' :: l) := by
    rw [stripCloser, if_pos rfl, trimEnd_space clean, stays]
  rw [stripLine, opened, closed, trimEnd_space clean]

end

theorem stripLines_map {leader : Leader} {front : Text} {ls : List Text}
    (here : ∀ l ∈ ls, stripLine leader (front ++ l) = (leader, indented l)) (more : List Text) :
    stripLines leader (ls.map (front ++ ·) ++ more) =
      ((stripLines leader more).1, ls.map indented ++ (stripLines leader more).2) := by
  induction ls with
  | nil => rfl
  | cons l rest ih =>
    obtain ⟨first, later⟩ := List.forall_mem_cons.mp here
    rw [List.map_cons, List.cons_append, stripLines, first, ih later]
    rfl

/-! ## Indents and ends -/

variable {ls : List Text}

theorem detab_eq_self {t : Text} (tab : '\t' ∉ t) (back : '\r' ∉ t) (width : Nat) :
    detab width t = t := by
  have kept (column : Nat) : detabFrom (max width 1) column t = t := by
    induction t generalizing column with
    | nil => rfl
    | cons c t ih =>
      simp only [List.mem_cons, not_or] at tab back
      rw [detabFrom, if_neg (Ne.symm tab.1), if_neg (Ne.symm back.1), ih tab.2 back.2]
  exact kept 0

theorem detab_indented {l : Text} (clean : CleanLine l) (width : Nat) :
    detab width (indented l) = indented l := by
  rw [indented]
  split_ifs
  · rfl
  · apply detab_eq_self <;> simp [clean.tab, clean.back]

theorem isBlank_indented {l : Text} (clean : CleanLine l) :
    Text.isBlank (indented l) = l.isEmpty := by
  by_cases empty : l = []
  · rw [empty]
    rfl
  · have text := clean.isBlank empty
    rw [Text.isBlank] at text
    simp [indented, empty, Text.isBlank, text]

/-- The space behind the leaders is all that the lines have in common. -/
theorem commonIndent_indented (clean : ∀ l ∈ ls, CleanLine l)
    (margin : ∃ l ∈ ls, l ≠ [] ∧ l.head? ≠ some ' ') :
    Text.commonIndent (ls.map indented) = 1 := by
  obtain ⟨l, mem, nonempty, first⟩ := margin
  have present : indented l ∈ ls.map indented := List.mem_map_of_mem mem
  have text : Text.isBlank (indented l) = false := by
    simpa [isBlank_indented (clean l mem)] using nonempty
  have one : Text.indent (indented l) = 1 := by
    cases l with
    | nil => exact absurd rfl nonempty
    | cons c l =>
      have other : c ≠ ' ' := by simpa using first
      simp [indented, Text.indent, other]
  rcases Text.commonIndent_spec (ls.map indented) with ⟨blank, -⟩ | ⟨⟨t, known, full, here⟩, least⟩
  · simp [blank _ present] at text
  · have upper : Text.commonIndent (ls.map indented) ≤ 1 := least ⟨_, present, text, one⟩
    have lower : 1 ≤ Text.commonIndent (ls.map indented) := by
      obtain ⟨line, source, rfl⟩ := List.mem_map.mp known
      have present : line.isEmpty = false := by rwa [isBlank_indented (clean line source)] at full
      rw [← here]
      simp [indented, present, Text.indent]
    omega

theorem removeIndent_indented (clean : ∀ l ∈ ls, CleanLine l)
    (margin : (∃ l ∈ ls, l ≠ []) → ∃ l ∈ ls, l ≠ [] ∧ l.head? ≠ some ' ') :
    removeIndent (ls.map indented) = ls := by
  rw [removeIndent, List.map_map]
  refine List.map_congr_left (fun l mem => ?_) |>.trans (List.map_id ls)
  rw [Function.comp_apply, isBlank_indented (clean l mem)]
  by_cases empty : l = []
  · simp [empty]
  · have common := commonIndent_indented clean (margin ⟨l, mem, empty⟩)
    simp [common, indented, empty]

theorem dropEmptyEnds_between (first : ls.head? ≠ some []) (last : ls.getLast? ≠ some [])
    {front back : List Text} (before : ∀ l ∈ front, l = []) (behind : ∀ l ∈ back, l = []) :
    dropEmptyEnds (front ++ ls ++ back) = ls := by
  have start {ls : List Text} (first : ls.head? ≠ some []) : ls.dropWhile List.isEmpty = ls := by
    cases ls with
    | nil => rfl
    | cons l rest => exact List.dropWhile_cons_of_neg (by simpa using first)
  have dropped {empty : List Text} (h : ∀ l ∈ empty, l = []) (ls : List Text) :
      (empty ++ ls).dropWhile List.isEmpty = ls.dropWhile List.isEmpty :=
    List.dropWhile_append_of_pos fun l mem => by simp [h l mem]
  rw [dropEmptyEnds, List.append_assoc, dropped before]
  by_cases none : ls = []
  · have nothing : back.dropWhile List.isEmpty = [] :=
      List.dropWhile_eq_nil_iff.mpr fun l mem => by simp [behind l mem]
    rw [none, List.nil_append, nothing]
    rfl
  · have front : (ls ++ back).head? ≠ some [] := by
      rwa [List.head?_append_of_ne_nil _ none]
    have reversed : ∀ l ∈ back.reverse, l = [] := fun l mem => behind l (List.mem_reverse.mp mem)
    rw [start front, List.reverse_append, dropped reversed, start (by rwa [List.head?_reverse]),
      List.reverse_reverse]

/-- What the leaders leave of clean lines is read as these lines, with empty lines around them or
without. -/
theorem ofRaw_of_stripped (clean : Clean ls) {raw : Text} {trailing : Bool}
    {front back : List Text} (before : ∀ l ∈ front, l = []) (behind : ∀ l ∈ back, l = [])
    (stripped : stripLines .start (Text.lines raw) =
      (⟨trailing, false⟩, (front ++ ls ++ back).map indented))
    (width : Nat) : ofRaw width raw = ⟨ls, trailing⟩ := by
  have lines : ∀ l ∈ front ++ ls ++ back, l = [] ∨ l ∈ ls := by
    intro l mem
    rcases List.mem_append.mp mem with mem | mem
    · rcases List.mem_append.mp mem with mem | mem
      · exact .inl (before l mem)
      · exact .inr mem
    · exact .inl (behind l mem)
  have clean' : ∀ l ∈ front ++ ls ++ back, CleanLine l := by
    intro l mem
    rcases lines l mem with rfl | known
    · exact .nil
    · exact clean.lines l known
  have margin : (∃ l ∈ front ++ ls ++ back, l ≠ []) →
      ∃ l ∈ front ++ ls ++ back, l ≠ [] ∧ l.head? ≠ some ' ' := by
    rintro ⟨l, mem, nonempty⟩
    have known := (lines l mem).resolve_left nonempty
    obtain ⟨l, mem, margin⟩ := clean.margin (List.ne_nil_of_mem known)
    exact ⟨l, by simp [mem], margin⟩
  have detabbed : ((front ++ ls ++ back).map indented).map (detab width) =
      (front ++ ls ++ back).map indented := by
    rw [List.map_map]
    exact List.map_congr_left fun l mem => detab_indented (clean' l mem) width
  rw [ofRaw, stripped]
  dsimp only
  rw [detabbed, removeIndent_indented clean' margin,
    dropEmptyEnds_between clean.first clean.last before behind]

/-! ## Layouts -/

/-- Lines behind leaders are cut where they were put together. -/
theorem lines_behind (front : Text) (bare : '\n' ∉ front ∧ '\r' ∉ front) (nonempty : front ≠ [])
    (clean : ∀ l ∈ ls, CleanLine l) :
    (∀ l ∈ ls.map (front ++ ·), '\n' ∉ l ∧ '\r' ∉ l) ∧
      Text.lines (Text.unlines (ls.map (front ++ ·))) = ls.map (front ++ ·) := by
  have whole : ∀ l ∈ ls.map (front ++ ·), '\n' ∉ l ∧ '\r' ∉ l := by
    intro l mem
    obtain ⟨line, known, rfl⟩ := List.mem_map.mp mem
    have here := clean line known
    simp [bare, here.feed, here.back]
  refine ⟨whole, Text.lines_unlines whole fun last => ?_⟩
  obtain ⟨line, -, empty⟩ := List.mem_map.mp (List.mem_of_getLast? last)
  exact nonempty (List.append_eq_nil_iff.mp empty).1

theorem ofRaw_slashes (clean : Clean ls) (width : Nat) :
    ofRaw width (Layout.slashes.write ls) = ⟨ls, false⟩ := by
  have lines : Text.lines (Layout.slashes.write ls) = ls.map ("/// ".toList ++ ·) :=
    (lines_behind "/// ".toList (by decide) (by decide) clean.lines).2
  have stripped := stripLines_map (fun l mem => stripLine_slashes (clean.lines l mem) false) []
  have read : stripLines .start (Text.lines (Layout.slashes.write ls)) =
      (⟨false, false⟩, ([] ++ ls ++ []).map indented) := by
    rw [lines]
    simpa [stripLines, Leader.start] using stripped
  exact ofRaw_of_stripped clean (by simp) (by simp) read width

theorem ofRaw_trailingSlashes (clean : Clean ls) (width : Nat) :
    ofRaw width (Layout.trailingSlashes.write ls) = ⟨ls, !ls.isEmpty⟩ := by
  have lines : Text.lines (Layout.trailingSlashes.write ls) = ls.map ("///< ".toList ++ ·) :=
    (lines_behind "///< ".toList (by decide) (by decide) clean.lines).2
  have read : stripLines .start (Text.lines (Layout.trailingSlashes.write ls)) =
      (⟨!ls.isEmpty, false⟩, ([] ++ ls ++ []).map indented) := by
    rw [lines]
    -- only the first line finds the leader as it was at the start
    cases ls with
    | nil => rfl
    | cons l rest =>
      have here := clean.lines
      have first := stripLine_trailingSlashes (here l List.mem_cons_self) false
      have later := stripLines_map
        (fun l mem => stripLine_trailingSlashes (here l (List.mem_cons_of_mem _ mem)) true) []
      simp only [List.append_nil, stripLines] at later
      rw [List.map_cons, stripLines, Leader.start, first, later]
      simp
  exact ofRaw_of_stripped clean (by simp) (by simp) read width

theorem ofRaw_block (clean : Clean ls) (ends : ∀ l ∈ ls, ¬"*/".toList <:+ l) (width : Nat) :
    ofRaw width (Layout.block.write ls) = ⟨ls, false⟩ := by
  have bare := (lines_behind " * ".toList (by decide) (by decide) clean.lines).1
  have lines : Text.lines (Layout.block.write ls) =
      "/**".toList :: ls.map (" * ".toList ++ ·) ++ [" */".toList] := by
    apply Text.lines_unlines
    · intro l mem
      rcases List.mem_append.mp mem with mem | mem
      · rcases List.mem_cons.mp mem with rfl | mem
        · decide
        · exact bare l mem
      · obtain rfl := List.mem_singleton.mp mem
        decide
    · rw [List.getLast?_concat]
      decide
  have opened : stripLine .start "/**".toList = (⟨false, true⟩, []) := rfl
  have closed : stripLines ⟨false, true⟩ [" */".toList] = (⟨false, false⟩, [[]]) := rfl
  have starred := stripLines_map
    (fun l mem => stripLine_star (clean.lines l mem) false (ends l mem)) [" */".toList]
  have read : stripLines .start (Text.lines (Layout.block.write ls)) =
      (⟨false, false⟩, ([[]] ++ ls ++ [[]]).map indented) := by
    rw [lines, List.cons_append, stripLines, opened, starred, closed]
    simp [indented]
  exact ofRaw_of_stripped clean (by simp) (by simp) read width

/-- Whatever a comment was written as, its lines are clean, and written as a comment of another
layout they are read again as they are, with tabs of any width. A block is for lines that do not end
it themselves. -/
theorem ofRaw_written (tabWidth : Nat) (raw : Text) :
    let ls := (ofRaw tabWidth raw).lines
    Clean ls ∧ ∀ width,
      ofRaw width (Layout.slashes.write ls) = ⟨ls, false⟩ ∧
      ofRaw width (Layout.trailingSlashes.write ls) = ⟨ls, !ls.isEmpty⟩ ∧
      ((∀ l ∈ ls, ¬"*/".toList <:+ l) → ofRaw width (Layout.block.write ls) = ⟨ls, false⟩) := by
  have clean := ofRaw_clean tabWidth raw
  refine ⟨clean, fun width => ⟨ofRaw_slashes clean width, ofRaw_trailingSlashes clean width, ?_⟩⟩
  exact fun ends => ofRaw_block clean ends width

/-- A block in which tabs, stars and slashes stand where leaders could be. -/
def decorated : Text :=
  "\t/**<\tReads\n\t *\t\t**p\r\n *\n  *\t/// or\t*/ p\n */".toList

theorem decorated_written_back :
    (ofRaw 4 decorated).lines =
        ["Reads".toList, "    **p".toList, [], "/// or  */ p".toList] ∧
      (∀ l ∈ (ofRaw 4 decorated).lines, ¬"*/".toList <:+ l) ∧
        ofRaw 8 (Layout.block.write (ofRaw 4 decorated).lines) =
          ⟨(ofRaw 4 decorated).lines, false⟩ := by
  have ends : ∀ l ∈ (ofRaw 4 decorated).lines, ¬"*/".toList <:+ l := by decide +kernel
  exact ⟨by decide +kernel, ends, ((ofRaw_written 4 decorated).2 8).2.2 ends⟩

end DocComment.Comment
