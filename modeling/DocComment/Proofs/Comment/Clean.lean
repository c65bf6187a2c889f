import DocComment.Comment
import DocComment.Proofs.Text.Lines
import DocComment.Proofs.Text.Space

/-!
# Lines of a comment

What is left of a raw comment is clean, whatever its leaders were: no tab and no line end remains,
no white space stands behind a line, no line at the ends is empty, and some line starts at the
margin.
-/

set_option autoImplicit false

namespace DocComment.Comment

/-- A line in which spaces are the only indent and nothing stands behind the last word. -/
structure CleanLine (l : Text) : Prop where
  tab : '\t' ∉ l
  back : '\r' ∉ l
  feed : '\n' ∉ l
  tail : ∀ c ∈ l.getLast?, Text.isSpace c = false

structure Clean (ls : List Text) : Prop where
  lines : ∀ l ∈ ls, CleanLine l
  first : ls.head? ≠ some []
  last : ls.getLast? ≠ some []
  margin : ls ≠ [] → ∃ l ∈ ls, l ≠ [] ∧ l.head? ≠ some ' '

theorem CleanLine.nil : CleanLine [] := by constructor <;> simp

/-- A clean line is not blank unless it is empty. -/
theorem CleanLine.isBlank {l : Text} (clean : CleanLine l) (nonempty : l ≠ []) :
    Text.isBlank l = false := by
  rcases l.eq_nil_or_concat' with rfl | ⟨front, c, rfl⟩
  · exact absurd rfl nonempty
  · simp [Text.isBlank, clean.tail c (by simp)]

theorem CleanLine.drop {l : Text} (clean : CleanLine l) (n : Nat) : CleanLine (l.drop n) where
  tab := fun mem => clean.tab (List.mem_of_mem_drop mem)
  back := fun mem => clean.back (List.mem_of_mem_drop mem)
  feed := fun mem => clean.feed (List.mem_of_mem_drop mem)
  tail := by
    intro c mem
    rw [List.getLast?_drop] at mem
    split_ifs at mem
    · cases mem
    · exact clean.tail c mem

/-! ## Leaders -/

theorem afterOpener?_suffix {openers : List Text} {t rest : Text}
    (h : afterOpener? openers t = some rest) : rest <:+ t := by
  obtain ⟨opener, -, cut⟩ := List.exists_of_findSome?_eq_some h
  rw [Text.dropPrefix?_eq_some.mp cut]
  exact List.suffix_append _ _

theorem dropStar_suffix (t : Text) : dropStar t <:+ t := by
  unfold dropStar
  split
  · exact List.suffix_rfl
  · exact List.suffix_rfl
  · exact List.suffix_cons _ _
  · exact List.suffix_rfl

theorem stripOpener_suffix (leader : Leader) (t : Text) : (stripOpener leader t).2 <:+ t := by
  unfold stripOpener
  split
  next cut => exact afterOpener?_suffix cut
  split
  next cut => exact afterOpener?_suffix cut
  split
  next cut => exact afterOpener?_suffix cut
  split
  next cut => exact afterOpener?_suffix cut
  dsimp only
  split
  · exact dropStar_suffix t
  · exact List.suffix_rfl

theorem prefix_stripCloser (leader : Leader) (t : Text) : (stripCloser leader t).2 <+: t := by
  unfold stripCloser
  split
  · split
    next body cut =>
      have front : body <+: Text.trimEnd t := by
        rw [Text.dropSuffix?_eq_some.mp cut]
        exact List.prefix_append _ _
      exact front.trans (Text.trimEnd_prefix t)
    · exact List.prefix_rfl
  · exact List.prefix_rfl

/-- Nothing is added to a line. -/
theorem stripLine_subset (leader : Leader) (line : Text) : (stripLine leader line).2 ⊆ line := by
  have opened := (stripOpener_suffix leader (Text.trimStart line)).subset
  have closed := (prefix_stripCloser (stripOpener leader (Text.trimStart line)).1
    (stripOpener leader (Text.trimStart line)).2).subset
  have start : Text.trimStart line ⊆ line := (List.dropWhile_suffix _).subset
  exact fun c mem => start (opened (closed ((Text.trimEnd_prefix _).subset mem)))

theorem mem_stripLines {leader : Leader} {ls : List Text} {l : Text}
    (h : l ∈ (stripLines leader ls).2) : ∃ leader, ∃ line ∈ ls, (stripLine leader line).2 = l := by
  induction ls generalizing leader with
  | nil => cases h
  | cons line rest ih =>
    rcases List.mem_cons.mp h with rfl | later
    · exact ⟨leader, line, List.mem_cons_self, rfl⟩
    · obtain ⟨next, other, mem, same⟩ := ih later
      exact ⟨next, other, List.mem_cons_of_mem _ mem, same⟩

/-! ## Tabs -/

theorem mem_detabFrom {width column : Nat} {t : Text} {c : Char}
    (h : c ∈ detabFrom width column t) : c ≠ '\t' ∧ c ≠ '\r' ∧ (c ∈ t ∨ c = ' ') := by
  induction t generalizing column with
  | nil => cases h
  | cons d t ih =>
    have later {column : Nat} (h : c ∈ detabFrom width column t) :
        c ≠ '\t' ∧ c ≠ '\r' ∧ (c ∈ d :: t ∨ c = ' ') := by
      obtain ⟨tab, back, source⟩ := ih h
      exact ⟨tab, back, source.imp_left (List.mem_cons_of_mem d)⟩
    rw [detabFrom] at h
    split_ifs at h with tab back
    · rcases List.mem_append.mp h with pad | rest
      · obtain rfl := List.eq_of_mem_replicate pad
        exact ⟨by decide, by decide, .inr rfl⟩
      · exact later rest
    · exact later h
    · rcases List.mem_cons.mp h with rfl | rest
      · exact ⟨tab, back, .inl List.mem_cons_self⟩
      · exact later rest

/-- The last character of a line stays the last, if it is no white space. -/
theorem getLast?_detabFrom {width column : Nat} {t : Text}
    (tail : ∀ c ∈ t.getLast?, Text.isSpace c = false) :
    (detabFrom width column t).getLast? = t.getLast? := by
  induction t generalizing column with
  | nil => rfl
  | cons c t ih =>
    rcases t.eq_nil_or_concat' with rfl | ⟨front, d, rfl⟩
    · have solid := tail c (by simp)
      have tab : c ≠ '\t' := by
        rintro rfl
        cases solid
      have back : c ≠ '\r' := by
        rintro rfl
        cases solid
      simp [detabFrom, tab, back]
    · have last : (c :: (front ++ [d])).getLast? = some d := by simp [List.getLast?_cons]
      have ends (column : Nat) : (detabFrom width column (front ++ [d])).getLast? = some d := by
        rw [ih, List.getLast?_concat]
        rwa [List.getLast?_concat, ← last]
      rw [last, detabFrom]
      split_ifs <;> simp [List.getLast?_append, List.getLast?_cons, ends]

theorem clean_detab (width : Nat) {t : Text} (feed : '\n' ∉ t) (leader : Leader) :
    CleanLine (detab width (stripLine leader t).2) where
  tab := fun mem => (mem_detabFrom mem).1 rfl
  back := fun mem => (mem_detabFrom mem).2.1 rfl
  feed := fun mem =>
    (mem_detabFrom mem).2.2.elim (fun here => feed (stripLine_subset leader t here)) (by decide)
  tail := by
    have trimmed : ∀ c ∈ (stripLine leader t).2.getLast?, Text.isSpace c = false :=
      Text.getLast?_trimEnd _
    rwa [detab, getLast?_detabFrom trimmed]

/-! ## Indents -/

theorem clean_removeIndent {ls : List Text} (clean : ∀ l ∈ ls, CleanLine l) :
    ∀ l ∈ removeIndent ls, CleanLine l := by
  intro l mem
  obtain ⟨line, known, rfl⟩ := List.mem_map.mp mem
  split
  · exact .nil
  · exact (clean line known).drop _

theorem drop_indent (t : Text) : t.drop (Text.indent t) = t.dropWhile (· == ' ') := by
  calc t.drop (Text.indent t)
      = (t.takeWhile (· == ' ') ++ t.dropWhile (· == ' ')).drop (Text.indent t) := by
        rw [List.takeWhile_append_dropWhile]
    _ = t.dropWhile (· == ' ') := List.drop_left

/-- The lines that have no more indent than others start at the margin without it. -/
theorem margin_removeIndent {ls : List Text} (nonblank : ∃ l ∈ removeIndent ls, l ≠ []) :
    ∃ l ∈ removeIndent ls, l ≠ [] ∧ l.head? ≠ some ' ' := by
  rcases Text.commonIndent_spec ls with ⟨blank, -⟩ | ⟨⟨t, known, full, least⟩, -⟩
  · obtain ⟨l, mem, nonempty⟩ := nonblank
    obtain ⟨line, known, rfl⟩ := List.mem_map.mp mem
    simp [blank line known] at nonempty
  · have kept : t.dropWhile (· == ' ') ∈ removeIndent ls :=
      List.mem_map.mpr ⟨t, known, by simp [full, ← least, drop_indent]⟩
    refine ⟨_, kept, fun empty => ?_, fun space => ?_⟩
    · have spaces : Text.isBlank t = true := by
        rw [List.dropWhile_eq_nil_iff] at empty
        refine List.all_eq_true.mpr fun c mem => ?_
        obtain rfl : c = ' ' := by simpa using empty c mem
        rfl
      simp [spaces] at full
    · have stops := List.head?_dropWhile_not (· == ' ') t
      simp [space] at stops

/-! ## Blank ends -/

theorem mem_dropEmptyEnds {ls : List Text} {l : Text} (h : l ∈ dropEmptyEnds ls) : l ∈ ls := by
  have front := (List.dropWhile_suffix _).subset (List.mem_reverse.mp h)
  exact (List.dropWhile_suffix _).subset (List.mem_reverse.mp front)

theorem mem_dropEmptyEnds_of_ne {ls : List Text} {l : Text} (mem : l ∈ ls) (nonempty : l ≠ []) :
    l ∈ dropEmptyEnds ls := by
  have full : l.isEmpty = false := by simpa using nonempty
  have front := Text.mem_dropWhile_of_not mem full
  exact List.mem_reverse.mpr (Text.mem_dropWhile_of_not (List.mem_reverse.mpr front) full)

theorem ends_dropEmptyEnds (ls : List Text) :
    (dropEmptyEnds ls).head? ≠ some [] ∧ (dropEmptyEnds ls).getLast? ≠ some [] := by
  have first (ls : List Text) : (ls.dropWhile List.isEmpty).head? ≠ some [] := by
    intro empty
    have stops := List.head?_dropWhile_not List.isEmpty ls
    simp [empty] at stops
  constructor
  · intro empty
    obtain ⟨more, cut⟩ := List.rdropWhile_prefix List.isEmpty (ls.dropWhile List.isEmpty)
    apply first ls
    rw [← cut, List.head?_append, List.rdropWhile, ← dropEmptyEnds, empty]
    rfl
  · rw [dropEmptyEnds, List.getLast?_reverse]
    exact first _

/-! ## All of it -/

theorem ofRaw_clean (width : Nat) (raw : Text) : Clean (ofRaw width raw).lines := by
  have stripped : ∀ l ∈ (stripLines .start (Text.lines raw)).2.map (detab width), CleanLine l := by
    intro l mem
    obtain ⟨t, known, rfl⟩ := List.mem_map.mp mem
    obtain ⟨leader, line, source, rfl⟩ := mem_stripLines known
    exact clean_detab width (Text.not_mem_of_mem_lines source) leader
  obtain ⟨first, last⟩ : (ofRaw width raw).lines.head? ≠ some [] ∧
      (ofRaw width raw).lines.getLast? ≠ some [] := ends_dropEmptyEnds _
  refine ⟨fun l mem => clean_removeIndent stripped l (mem_dropEmptyEnds mem), first, last, ?_⟩
  intro present
  obtain ⟨l, rest, lines⟩ := List.exists_cons_of_ne_nil present
  have known : l ∈ (ofRaw width raw).lines := by simp [lines]
  have full : l ≠ [] := by
    rintro rfl
    exact first (by rw [lines, List.head?_cons])
  obtain ⟨l, mem, nonempty, margin⟩ := margin_removeIndent ⟨l, mem_dropEmptyEnds known, full⟩
  exact ⟨l, mem_dropEmptyEnds_of_ne mem nonempty, nonempty, margin⟩

end DocComment.Comment
