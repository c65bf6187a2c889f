import DocComment.Proofs.Block.Nesting
import DocComment.Proofs.Text.Lines
import DocComment.Proofs.Text.Position
import DocComment.Proofs.Text.Space

/-!
# Where definitions stand

A definition is cut out of the text of its list. The lines that are read for it are pieces of lines
of the list, one after another from the line of its tag on.
-/

set_option autoImplicit false

namespace DocComment

/-! ## Pieces of lines -/

namespace Text

/-- The lines of a text go on in what follows. -/
theorem splitOn_front {t u : Text} {i : Nat} (h : (t.splitOn '\n')[i]? = some u) (back : Text) :
    ∃ l, ((t ++ back).splitOn '\n')[i]? = some l ∧ u <+: l := by
  induction t generalizing i u with
  | nil =>
    obtain ⟨first, others, pieces⟩ := List.exists_cons_of_ne_nil (List.splitOn_ne_nil '\n' back)
    cases i with
    | zero =>
      obtain rfl : [] = u := by simpa [List.splitOn] using h
      exact ⟨first, by simp [pieces], List.nil_prefix⟩
    | succ i => simp [List.splitOn] at h
  | cons c t ih =>
    rw [splitOn_cons] at h
    rw [List.cons_append, splitOn_cons]
    by_cases feed : c = '\n'
    · rw [if_pos feed] at h ⊢
      cases i with
      | zero => exact ⟨[], rfl, by simp_all⟩
      | succ i => exact ih (by simpa using h)
    · rw [if_neg feed] at h ⊢
      obtain ⟨first, others, pieces⟩ := List.exists_cons_of_ne_nil (List.splitOn_ne_nil '\n' t)
      rw [pieces] at h ih
      obtain ⟨first', others', pieces'⟩ :=
        List.exists_cons_of_ne_nil (List.splitOn_ne_nil '\n' (t ++ back))
      rw [pieces'] at ih ⊢
      cases i with
      | zero =>
        obtain ⟨l, found, sub⟩ := ih (i := 0) rfl
        obtain rfl : first' = l := by simpa using found
        obtain rfl : c :: first = u := by simpa using h
        exact ⟨c :: first', rfl, List.cons_prefix_cons.mpr ⟨rfl, sub⟩⟩
      | succ i => exact ih (i := i + 1) h

/-- The lines of a text come after those of what stands in front. -/
theorem splitOn_back {t u : Text} {i : Nat} (h : (t.splitOn '\n')[i]? = some u) (front : Text) :
    ∃ l, ((front ++ t).splitOn '\n')[front.count '\n' + i]? = some l ∧ u <:+ l := by
  induction front with
  | nil => exact ⟨u, by simpa using h, List.suffix_rfl⟩
  | cons c front ih =>
    obtain ⟨l, found, sub⟩ := ih
    rw [List.cons_append, splitOn_cons]
    by_cases feed : c = '\n'
    · have next : (c :: front).count '\n' + i = front.count '\n' + i + 1 := by
        rw [feed, List.count_cons_self]
        omega
      exact ⟨l, by rw [if_pos feed, next, List.getElem?_cons_succ, found], sub⟩
    · rw [if_neg feed, List.count_cons_of_ne (by simpa using feed)]
      obtain ⟨first, others, pieces⟩ :=
        List.exists_cons_of_ne_nil (List.splitOn_ne_nil '\n' (front ++ t))
      rw [pieces] at found ⊢
      cases place : front.count '\n' + i with
      | zero =>
        rw [place] at found
        obtain rfl : first = l := by simpa using found
        exact ⟨c :: first, rfl, sub.trans (List.suffix_cons c first)⟩
      | succ n =>
        rw [place] at found
        exact ⟨l, found, sub⟩

theorem getElem?_linesOf {pieces : List Text} {i : Nat} {u : Text}
    (h : (linesOf pieces)[i]? = some u) : ∃ l, pieces[i]? = some l ∧ u <+: l := by
  fun_induction linesOf pieces generalizing i with
  | case1 => simp at h
  | case2 last empty => simp at h
  | case3 last full => exact ⟨u, h, List.prefix_rfl⟩
  | case4 line rest _ ih =>
    cases i with
    | zero =>
      obtain rfl : dropReturn line = u := by simpa using h
      exact ⟨line, rfl, dropReturn_prefix line⟩
    | succ i => exact ih h

end Text

/-! ## Definitions with their lines -/

namespace Definition

/-- The definitions of a list, each with the number of line feeds in front of it. -/
def placesFrom (line : Nat) : Nat → Nat → Text → List (Nat × Text)
  | _, _, [] => []
  | skip + 1, depth, c :: t => placesFrom (line + [c].count '\n') skip depth t
  | 0, depth, c :: t =>
    let line := line + [c].count '\n'
    if Text.startsWithIgnoringCase DefinitionTag.openList (c :: t) then
      placesFrom line 0 (depth + 1) t
    else if Text.startsWithIgnoringCase DefinitionTag.closeList (c :: t) then
      if depth = 1 then placesFrom line 4 0 t else placesFrom line 0 (depth - 1) t
    else
      match if depth = 1 then boundary? (c :: t) else none with
      | some (some .body, n) =>
        (line, (scan (n - 1) depth t).text) :: placesFrom line (n - 1) depth t
      | some (_, n) => placesFrom line (n - 1) depth t
      | none => placesFrom line 0 depth t

def places (t : Text) : List (Nat × Text) := placesFrom 0 0 0 t

theorem placesFrom_bodies (line skip depth : Nat) (t : Text) :
    (placesFrom line skip depth t).map Prod.snd = bodiesOf (scan skip depth t).parts := by
  fun_induction scan skip depth t generalizing line with
  | case1 => rfl
  | case2 skip depth c t ih => exact ih _
  | case3 depth c t opens ih => simpa [placesFrom, opens, Scan.consChar] using ih _
  | case4 c t opens closes ih => simpa [placesFrom, opens, closes, Scan.cut] using ih _
  | case5 depth c t opens closes deep ih =>
    simpa [placesFrom, opens, closes, deep, Scan.consChar] using ih _
  | case6 depth c t opens closes kind n boundary ih =>
    rw [placesFrom]
    simp only [opens, closes, boundary]
    rcases kind with none | (term | body)
    · exact ih _
    · exact ih _
    · exact congrArg ((scan (n - 1) depth t).text :: ·) (ih _)
  | case7 depth c t opens closes none ih =>
    simpa [placesFrom, opens, closes, none, Scan.consChar] using ih _

theorem snd_places (t : Text) : (places t).map Prod.snd = bodiesOf (partsOf t) :=
  placesFrom_bodies 0 0 0 t

/-- The text of the open part comes first, behind what is left of a tag. -/
theorem text_scan (skip depth : Nat) (t : Text) : (scan skip depth t).text <+: t.drop skip := by
  fun_induction scan skip depth t with
  | case1 => simp
  | case2 skip depth c t ih => simpa using ih
  | case3 depth c t opens ih => exact List.cons_prefix_cons.mpr ⟨rfl, ih⟩
  | case4 c t opens closes ih => exact List.nil_prefix
  | case5 depth c t opens closes deep ih => exact List.cons_prefix_cons.mpr ⟨rfl, ih⟩
  | case6 depth c t opens closes kind n boundary ih =>
    rcases kind with none | (term | body) <;> exact List.nil_prefix
  | case7 depth c t opens closes none ih => exact List.cons_prefix_cons.mpr ⟨rfl, ih⟩

/-- The tag of a definition holds no line feed. -/
theorem count_tag {c : Char} {t : Text} {n : Nat}
    (tag : boundary? (c :: t) = some (some .body, n)) : (t.take (n - 1)).count '\n' = 0 := by
  have plain {pattern t : Text} (h : Text.startsWithIgnoringCase pattern t = true)
      (visible : ∀ d ∈ pattern, d.toLower ≠ '\n') : (t.take pattern.length).count '\n' = 0 := by
    induction pattern generalizing t with
    | nil => simp
    | cons d pattern ih =>
      obtain ⟨here, later⟩ := List.forall_mem_cons.mp visible
      cases t with
      | nil => cases h
      | cons e t =>
        rw [Text.startsWithIgnoringCase, Bool.and_eq_true, beq_iff_eq] at h
        have other : e ≠ '\n' := by
          rintro rfl
          exact here h.1
        rw [List.length_cons, List.take_succ_cons, List.count_cons_of_ne (by simpa using other)]
        exact ih h.2 later
  unfold boundary? at tag
  dsimp only at tag
  have open_ : Text.startsWithIgnoringCase DefinitionTag.body (c :: t) = true ∧ n = 4 := by
    split at tag
    next => simp at tag
    next =>
      split at tag
      next body => exact ⟨body, by simpa using tag.symm⟩
      next => split at tag <;> simp_all
  have tag : ∀ d ∈ DefinitionTag.body, d.toLower ≠ '\n' := by simp [DefinitionTag.body]
  have none : ((c :: t).take 4).count '\n' = 0 := plain open_.1 tag
  rw [List.take_succ_cons, List.count_cons] at none
  rw [open_.2]
  exact Nat.eq_zero_of_add_eq_zero_right none

/-- A definition stands in the text where its number of line feeds says. -/
theorem mem_placesFrom {line skip depth : Nat} {t body : Text} {place : Nat}
    (h : (place, body) ∈ placesFrom line skip depth t) :
    ∃ front back, t = front ++ body ++ back ∧ place = line + front.count '\n' := by
  have step {line : Nat} {c : Char} {t : Text}
      (later : ∃ front back, t = front ++ body ++ back ∧
        place = line + [c].count '\n' + front.count '\n') :
      ∃ front back, c :: t = front ++ body ++ back ∧ place = line + front.count '\n' := by
    obtain ⟨front, back, rfl, same⟩ := later
    refine ⟨c :: front, back, rfl, ?_⟩
    rw [same, ← List.singleton_append (l := front), List.count_append, Nat.add_assoc]
  fun_induction placesFrom line skip depth t with
  | case1 => cases h
  | case2 line skip depth c t ih => exact step (ih h)
  | case3 line depth c t _ _ ih => exact step (ih h)
  | case4 line c t _ _ _ ih => exact step (ih h)
  | case5 line depth c t _ _ _ _ ih => exact step (ih h)
  | case6 line depth c t _ _ _ n boundary ih =>
    have tag : boundary? (c :: t) = some (some .body, n) := by
      by_cases outermost : depth = 1
      · simpa [outermost] using boundary
      · simp [outermost] at boundary
    obtain here | later := List.mem_cons.mp h
    · obtain ⟨rfl, rfl⟩ := Prod.mk.inj here
      obtain ⟨back, rest⟩ := text_scan (n - 1) depth t
      apply step
      refine ⟨t.take (n - 1), back, ?_, by rw [count_tag tag]; rfl⟩
      rw [List.append_assoc, rest, List.take_append_drop]
    · exact step (ih later)
  | case7 line depth c t _ _ _ kind n _ _ ih => exact step (ih h)
  | case8 line depth c t _ _ _ _ ih => exact step (ih h)

theorem getElem?_bodyLines {t u : Text} {i : Nat} (h : (bodyLines t)[i]? = some u) :
    ∃ l, (t.splitOn '\n')[i]? = some l ∧ u <:+: l := by
  rw [bodyLines, List.getElem?_map] at h
  obtain ⟨line, found, rfl⟩ := Option.map_eq_some_iff.mp h
  obtain ⟨l, piece, front⟩ := Text.getElem?_linesOf found
  refine ⟨l, piece, List.IsInfix.trans ?_ front.isInfix⟩
  refine (Text.trimEnd_prefix _).isInfix.trans ?_
  cases rest : Text.dropBytes? _ line with
  | none => exact (List.nil_prefix).isInfix
  | some rest => exact (Text.dropBytes?_suffix rest).isInfix

/-- The lines that are read for a definition are pieces of the lines of its list, from the line of
its tag on. -/
theorem bodyLines_place {lines : List Text} (single : ∀ l ∈ lines, '\n' ∉ l) {place : Nat}
    {body : Text} (known : (place, body) ∈ places (Text.unlines lines)) {i : Nat} {u : Text}
    (h : (bodyLines body)[i]? = some u) : ∃ l, lines[place + i]? = some l ∧ u <:+: l := by
  obtain ⟨front, back, whole, rfl⟩ := mem_placesFrom known
  have nonempty : lines ≠ [] := by
    rintro rfl
    cases known
  have split : (Text.unlines lines).splitOn '\n' = lines :=
    List.splitOn_intercalate '\n' single nonempty
  obtain ⟨piece, found, sub⟩ := getElem?_bodyLines h
  obtain ⟨longer, found, front'⟩ := Text.splitOn_front found back
  obtain ⟨line, found, back'⟩ := Text.splitOn_back found front
  rw [← List.append_assoc, ← whole, split] at found
  refine ⟨line, by rwa [Nat.zero_add], ?_⟩
  exact sub.trans (front'.isInfix.trans back'.isInfix)

end Definition

end DocComment
