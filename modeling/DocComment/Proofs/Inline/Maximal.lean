import DocComment.Proofs.Inline.Lexed

/-!
# Tokens are maximal

`Spells` says which texts the pattern of each kind accepts. The token at the front of a text is
the longest that any pattern accepts there. Where none accepts what was taken, it is a slice of
text: a tag up to where it goes wrong, or a character that starts nothing. What stands behind a
token has no part in it, so its text alone is that token again.
-/

set_option autoImplicit false

namespace DocComment

namespace InlineToken

open Text (isSpace)

/-! ## Patterns -/

/-- The texts that the pattern of each kind of token accepts. -/
inductive Spells : Kind → Text → Prop where
  | spaces {c : Char} {run : Text} (inside : ∀ d ∈ c :: run, isBlankChar d = true) :
    Spells .spaces (c :: run)
  | lineFeed : Spells .lineBreak ['\n']
  | lineEnd : Spells .lineBreak ['\r', '\n']
  | escape {mark c : Char} (marks : Command.isMark mark = true) (literal : isEscapable c = true) :
    Spells .escape [mark, c]
  | formulaMark {mark : Char} (marks : Command.isMark mark = true) :
    Spells .formulaMark [mark, 'f', '$']
  | command {mark c : Char} {name : Text} (marks : Command.isMark mark = true)
    (letter : (c.isAlpha || c == '_') = true) (inside : ∀ d ∈ name, Command.isNameChar d = true) :
    Spells .command (mark :: c :: name)
  | tag {slash name back : Text} {c : Char} (opening : slash = [] ∨ slash = ['/'])
    (letter : c.isAlpha = true) (word : ∀ d ∈ name, d.isAlphanum = true) (closes : Closes back) :
    Spells .tag ('<' :: (slash ++ c :: (name ++ back)))
  | codeMark : Spells .codeMark ['\x60']
  | doubleStar : Spells .doubleStar ['*', '*']
  | star : Spells .star ['*']
  | doubleTilde : Spells .doubleTilde ['~', '~']
  | quote : Spells .quote ['"']
  | text {c : Char} {run : Text} (inside : ∀ d ∈ c :: run, isTextChar d = true) :
    Spells .text (c :: run)
  | lone {c : Char} (mark : c ∈ "@\\<~".toList) : Spells .lone [c]

/-- What is taken is spelled by its kind, or is text that no kind spells. -/
def Spelled (kind : Kind) (t : Text) : Prop :=
  Spells kind t ∨ kind = .text ∧ ∀ k, ¬Spells k t

/-- A token that stands before `rest` and takes no less than any pattern accepts there. -/
structure Longest (token : InlineToken) (rest : Text) : Prop where
  spelled : Spelled token.kind token.text
  longest : ∀ kind front, front <+: token.text ++ rest → Spells kind front →
    front.length ≤ token.text.length

/-! ## Readers -/

/-- A reader takes the same off the front of a text whether or not more follows. -/
structure Takes (reader : Text → Kind × Nat) (kind : Kind) (front rest : Text) : Prop where
  whole : reader (front ++ rest) = (kind, front.length)
  alone : reader front = (kind, front.length)

theorem Takes.nothing {reader : Text → Kind × Nat} {kind : Kind} (h : ∀ t, reader t = (kind, 0))
    (t : Text) : Takes reader kind [] t := ⟨h t, h []⟩

/-- A run is taken as far as it goes. -/
theorem Takes.run {reader : Text → Kind × Nat} {kind : Kind} {p : Char → Bool}
    (h : ∀ t, reader t = (kind, (t.takeWhile p).length)) {run rest : Text}
    (inside : ∀ c ∈ run, p c = true) (after : ∀ c ∈ rest.head?, p c = false) :
    Takes reader kind run rest where
  whole := by rw [h, Text.takeWhile_run inside after]
  alone := by rw [h, List.takeWhile_eq_self_iff.2 inside]

/-! ## Tags -/

/-- What a reader of tag ends takes closes the tag, or does not hold what would. -/
def EndTaken (t : Text) : Prop :=
  ∃ kind front rest, t = front ++ rest ∧ Takes tagEnd kind front rest ∧
    (kind = .tag ∧ Closes front ∨ kind = .text ∧ '>' ∉ front)

theorem endTaken_closes {front : Text} (h : Closes front) (rest : Text) :
    EndTaken (front ++ rest) :=
  ⟨.tag, front, rest, rfl, ⟨tagEnd_closes h rest, by simpa using tagEnd_closes h []⟩,
    .inl ⟨rfl, h⟩⟩

theorem endTaken_space {c : Char} (space : isSpace c = true) (t : Text) : EndTaken (c :: t) := by
  obtain ⟨run, rest, rfl, inside, after⟩ := Text.exists_run (fun d => d != '<' && d != '>') t
  have angles : ∀ d ∈ c :: run, d ≠ '<' ∧ d ≠ '>' := by
    refine List.forall_mem_cons.2 ⟨⟨?_, ?_⟩, fun d mem => by simpa using inside d mem⟩
    · rintro rfl
      cases space
    · rintro rfl
      cases space
  have stop : ∀ d ∈ rest.head?, d = '<' ∨ d = '>' := by
    intro d first
    have := after d first
    simpa [imp_iff_not_or] using this
  by_cases closed : rest.head? = some '>'
  · obtain ⟨rest, rfl⟩ := List.head?_eq_some_iff.1 closed
    have ends := endTaken_closes (.mk (c :: run) [] (by simpa using space) angles (.inl rfl)) rest
    simpa using ends
  · refine ⟨.text, c :: run, rest, rfl, ⟨?_, ?_⟩, .inr ⟨rfl, ?_⟩⟩
    · rw [tagEnd_run space angles rest stop, if_neg closed]
    · simpa using tagEnd_run space angles [] (by simp)
    · exact fun mem => (angles _ mem).2 rfl

theorem endTaken (t : Text) : EndTaken t := by
  fun_cases tagEnd t with
  | case1 rest => exact endTaken_closes (.mk [] [] (by simp) (by simp) (.inl rfl)) rest
  | case2 rest => exact endTaken_closes (.mk [] ['/'] (by simp) (by simp) (.inr rfl)) rest
  | case3 c t _ _ space => exact endTaken_space space t
  | case4 c t _ _ space => exact endTaken_space space t
  | case5 c t notEnd notSlash solid =>
    refine ⟨.text, [], c :: t, rfl, ⟨?_, rfl⟩, .inr ⟨rfl, by simp⟩⟩
    rw [List.nil_append, tagEnd, if_neg solid]
    · rfl
    · exact notEnd
    · exact notSlash
  | case6 => exact ⟨.text, [], [], rfl, ⟨rfl, rfl⟩, .inr ⟨rfl, by simp⟩⟩

theorem afterTagStart_takes {c : Char} (letter : c.isAlpha = true) (t : Text) :
    ∃ kind name back rest, t = name ++ back ++ rest ∧ (∀ d ∈ name, d.isAlphanum = true) ∧
      Takes afterTagStart kind (c :: (name ++ back)) rest ∧
      (kind = .tag ∧ Closes back ∨ kind = .text ∧ '>' ∉ back) := by
  obtain ⟨name, behind, rfl, word, after⟩ := Text.exists_run Char.isAlphanum t
  obtain ⟨kind, back, rest, rfl, takes, ends⟩ := endTaken behind
  have word' : ∀ d ∈ c :: name, d.isAlphanum = true :=
    List.forall_mem_cons.2 ⟨by simp [Char.isAlphanum, letter], word⟩
  refine ⟨kind, name, back, rest, by simp, word, ⟨?_, ?_⟩, ends⟩
  · have read := afterTagStart_run word' after
    rw [takes.whole] at read
    simpa [Nat.add_right_comm] using read
  · have read := afterTagStart_run word' (Text.head?_front after)
    rw [takes.alone] at read
    simpa [Nat.add_right_comm] using read

/-! ## Marks -/

/-- A formula delimiter is no shorter than the name that it is read for. -/
theorem length_le_afterMark {c : Char} (letter : (c.isAlpha || c == '_') = true) {name : Text}
    (inside : ∀ d ∈ name, Command.isNameChar d = true) (rest : Text) :
    (c :: name).length ≤ (afterMark (c :: (name ++ rest))).2 := by
  rw [afterMark, if_neg (by simp [isEscapable_of_starts letter]), List.length_cons]
  split_ifs with formula
  · cases name with
    | nil => simp
    | cons d name =>
      obtain rfl : d = '$' := by simpa using formula.2
      cases inside '$' List.mem_cons_self
  · have := Text.length_le_takeWhile inside rest
    show name.length + 1 ≤ 1 + _
    omega

theorem mem_lone {mark : Char} (marks : Command.isMark mark = true) : mark ∈ "@\\<~".toList := by
  rcases Command.isMark_cases marks with rfl | rfl <;> decide

theorem afterMark_takes {mark : Char} (marks : Command.isMark mark = true) (t : Text) :
    ∃ kind front rest, t = front ++ rest ∧ Takes afterMark kind front rest ∧
      Spells kind (mark :: front) := by
  fun_cases afterMark t with
  | case1 => exact ⟨.lone, [], [], rfl, ⟨rfl, rfl⟩, .lone (mem_lone marks)⟩
  | case2 c t literal =>
    exact ⟨.escape, [c], t, rfl, ⟨afterMark_escape literal t, afterMark_escape literal []⟩,
      .escape marks literal⟩
  | case3 c t literal formula =>
    obtain ⟨rfl, dollar⟩ := formula
    obtain ⟨rest, rfl⟩ := List.head?_eq_some_iff.1 dollar
    exact ⟨.formulaMark, ['f', '$'], rest, rfl, ⟨rfl, rfl⟩, .formulaMark marks⟩
  | case4 c t literal formula letter =>
    obtain ⟨name, rest, rfl, inside, after⟩ := Text.exists_run Command.isNameChar t
    refine ⟨.command, c :: name, rest, rfl, ⟨?_, ?_⟩, .command marks letter inside⟩
    · exact afterMark_command letter inside after formula
    · -- Without the rest the name is no formula delimiter either.
      have alone : ¬(c = 'f' ∧ (name ++ []).head? = some '$') := by
        rintro ⟨same, dollar⟩
        rw [List.append_nil] at dollar
        exact formula ⟨same, by rw [List.head?_append, dollar]; rfl⟩
      simpa using afterMark_command letter inside (by simp) alone
  | case5 c t literal formula letter =>
    refine ⟨.lone, [], c :: t, rfl, ⟨?_, rfl⟩, .lone (mem_lone marks)⟩
    rw [List.nil_append, afterMark, if_neg literal, if_neg formula, if_neg letter]
    rfl

/-! ## Angles -/

/-- A tag that goes wrong is spelled by nothing. -/
theorem not_spells_angle {t : Text} (nonempty : t ≠ []) (h : '>' ∉ t) (kind : Kind) :
    ¬Spells kind ('<' :: t) := by
  intro spells
  cases spells with
  | spaces inside => cases inside '<' List.mem_cons_self
  | escape marks => cases marks
  | formulaMark marks => cases marks
  | command marks => cases marks
  | text inside => cases inside '<' List.mem_cons_self
  | tag _ _ _ closes =>
    cases closes
    simp at h
  | lone => exact nonempty rfl

theorem afterAngle_takes_slash {slash : Text} (opening : slash = [] ∨ slash = ['/']) {c : Char}
    (letter : c.isAlpha = true) (t : Text) : ∃ kind front rest, slash ++ c :: t = front ++ rest ∧
      Takes afterAngle kind front rest ∧ Spelled kind ('<' :: front) := by
  obtain ⟨kind, name, back, rest, rfl, word, takes, ends⟩ := afterTagStart_takes letter t
  refine ⟨kind, slash ++ c :: (name ++ back), rest, by simp, ⟨?_, ?_⟩, ?_⟩
  · have read := afterAngle_slash opening letter (name ++ back ++ rest)
    have whole := takes.whole
    rw [List.cons_append] at whole
    rw [whole] at read
    simpa using read
  · have read := afterAngle_slash opening letter (name ++ back)
    rw [takes.alone] at read
    simpa using read
  · rcases ends with ⟨rfl, closes⟩ | ⟨rfl, open'⟩
    · exact .inl (.tag opening letter word closes)
    · refine .inr ⟨rfl, not_spells_angle (by simp) ?_⟩
      have first : '>' ≠ c := (Text.ne_of_isAlpha letter rfl).symm
      have others : '>' ∉ name := fun mem => by cases word _ mem
      rcases opening with rfl | rfl <;> simp [first, others, open']

theorem afterAngle_takes (t : Text) : ∃ kind front rest, t = front ++ rest ∧
    Takes afterAngle kind front rest ∧ Spelled kind ('<' :: front) := by
  have lone {t : Text} (h : afterAngle t = (.lone, 0)) : ∃ kind front rest, t = front ++ rest ∧
      Takes afterAngle kind front rest ∧ Spelled kind ('<' :: front) :=
    ⟨.lone, [], t, rfl, ⟨h, rfl⟩, .inl (.lone (by decide))⟩
  fun_cases afterAngle t with
  | case1 c t letter => exact afterAngle_takes_slash (.inr rfl) letter t
  | case2 c t letter => exact lone (by rw [afterAngle, if_neg letter])
  | case3 c t notSlash letter => exact afterAngle_takes_slash (.inl rfl) letter t
  | case4 c t notSlash letter => exact lone (by rw [afterAngle, if_neg letter]; exact notSlash)
  | case5 => exact lone rfl

/-! ## Tokens -/

/-- No pattern accepts white space at its front but that of blanks and of line ends. -/
theorem Spells.front {kind : Kind} {t : Text} (h : Spells kind t) :
    ∀ c ∈ t.head?, isSpace c = true → isBlankChar c = true ∨ c = '\n' ∨ t = ['\r', '\n'] := by
  intro c mem space
  cases h with
  | spaces inside =>
    cases mem
    exact .inl (inside _ List.mem_cons_self)
  | lineFeed =>
    cases mem
    exact .inr (.inl rfl)
  | lineEnd => exact .inr (.inr rfl)
  | escape marks | formulaMark marks | command marks =>
    cases mem
    rcases Command.isMark_cases marks with rfl | rfl <;> cases space
  | text inside =>
    cases mem
    have := inside _ List.mem_cons_self
    simp [isTextChar, space] at this
  | lone mark =>
    cases mem
    have marks : c = '@' ∨ c = '\\' ∨ c = '<' ∨ c = '~' := by simpa using mark
    rcases marks with rfl | rfl | rfl | rfl <;> cases space
  | _ =>
    cases mem
    cases space

/-- What a first character takes off the front of a text, whatever comes behind it. -/
theorem shape_takes (c : Char) (t : Text) : ∃ kind front rest, t = front ++ rest ∧
    Takes (shape c) kind front rest ∧ Spelled kind (c :: front) := by
  fun_cases shape c t with
  | case1 blank =>
    obtain ⟨run, rest, rfl, inside, after⟩ := Text.exists_run isBlankChar t
    exact ⟨.spaces, run, rest, rfl, .run (shape_blank blank) inside after,
      .inl (.spaces (List.forall_mem_cons.2 ⟨blank, inside⟩))⟩
  | case2 _ feed =>
    subst feed
    exact ⟨.lineBreak, [], t, rfl, .nothing (fun _ => rfl) t, .inl .lineFeed⟩
  | case3 _ _ feed =>
    obtain ⟨rfl, feed⟩ := feed
    obtain ⟨rest, rfl⟩ := List.head?_eq_some_iff.1 feed
    exact ⟨.lineBreak, ['\n'], rest, rfl, ⟨rfl, rfl⟩, .inl .lineEnd⟩
  | case4 _ _ _ marks =>
    obtain ⟨kind, front, rest, rfl, takes, spells⟩ := afterMark_takes marks t
    exact ⟨kind, front, rest, rfl, by rwa [shape_mark marks], .inl spells⟩
  | case5 _ _ _ _ angle =>
    subst angle
    obtain ⟨kind, front, rest, rfl, takes, spelled⟩ := afterAngle_takes t
    exact ⟨kind, front, rest, rfl, by rwa [shape_angle], spelled⟩
  | case6 _ _ _ _ _ code =>
    subst code
    exact ⟨.codeMark, [], t, rfl, .nothing (fun _ => rfl) t, .inl .codeMark⟩
  | case7 _ _ _ _ _ _ star double =>
    subst star
    obtain ⟨rest, rfl⟩ := List.head?_eq_some_iff.1 double
    exact ⟨.doubleStar, ['*'], rest, rfl, ⟨rfl, rfl⟩, .inl .doubleStar⟩
  | case8 _ _ _ _ _ _ star single =>
    subst star
    have whole : shape '*' t = (.star, 0) := by simp [shape, isBlankChar, Command.isMark, single]
    exact ⟨.star, [], t, rfl, ⟨whole, rfl⟩, .inl .star⟩
  | case9 _ _ _ _ _ _ _ tilde double =>
    subst tilde
    obtain ⟨rest, rfl⟩ := List.head?_eq_some_iff.1 double
    exact ⟨.doubleTilde, ['~'], rest, rfl, ⟨rfl, rfl⟩, .inl .doubleTilde⟩
  | case10 _ _ _ _ _ _ _ tilde single =>
    subst tilde
    have whole : shape '~' t = (.lone, 0) := by simp [shape, isBlankChar, Command.isMark, single]
    exact ⟨.lone, [], t, rfl, ⟨whole, rfl⟩, .inl (.lone (by decide))⟩
  | case11 _ _ _ _ _ _ _ _ quote =>
    subst quote
    exact ⟨.quote, [], t, rfl, .nothing (fun _ => rfl) t, .inl .quote⟩
  | case12 blank feed lineEnd mark angle code star tilde quote space =>
    refine ⟨.text, [], t, rfl, ⟨?_, ?_⟩, .inr ⟨rfl, fun kind spells => ?_⟩⟩
    · simp [shape, blank, feed, lineEnd, mark, angle, code, star, tilde, quote, space]
    · simp [shape, blank, feed, mark, angle, code, star, tilde, quote, space]
    · rcases spells.front c rfl space with blank' | feed' | lineEnd'
      · exact blank blank'
      · exact feed feed'
      · cases lineEnd'
  | case13 _ _ _ mark angle code star tilde quote solid =>
    have text : isTextChar c = true := by
      simp_all [isTextChar, Command.isMark]
    obtain ⟨run, rest, rfl, inside, after⟩ := Text.exists_run isTextChar t
    exact ⟨.text, run, rest, rfl, .run (shape_text text) inside after,
      .inl (.text (List.forall_mem_cons.2 ⟨text, inside⟩))⟩

/-- No pattern accepts more than the token takes. -/
theorem Spells.length_le {kind : Kind} {c : Char} {front : Text} (h : Spells kind (c :: front))
    (rest : Text) : front.length ≤ (shape c (front ++ rest)).2 := by
  cases h with
  | spaces inside =>
    obtain ⟨blank, inside⟩ := List.forall_mem_cons.1 inside
    rw [shape_blank blank]
    exact Text.length_le_takeWhile inside rest
  | text inside =>
    obtain ⟨text, inside⟩ := List.forall_mem_cons.1 inside
    rw [shape_text text]
    exact Text.length_le_takeWhile inside rest
  | escape marks literal =>
    rw [shape_mark marks, List.cons_append, afterMark_escape literal]
    exact Nat.le_refl 1
  | formulaMark marks =>
    rw [shape_mark marks]
    exact Nat.le_refl 2
  | command marks letter inside =>
    rw [shape_mark marks]
    exact length_le_afterMark letter inside rest
  | @tag slash name back d opening letter word closes =>
    have word' : ∀ e ∈ d :: name, e.isAlphanum = true :=
      List.forall_mem_cons.2 ⟨by simp [Char.isAlphanum, letter], word⟩
    have start := afterTagStart_run word' (closes.head rest)
    have read := afterAngle_slash opening letter (name ++ (back ++ rest))
    rw [List.cons_append] at start
    rw [start, tagEnd_closes closes] at read
    have same : slash ++ d :: (name ++ back) ++ rest = slash ++ d :: (name ++ (back ++ rest)) := by
      simp
    rw [shape_angle, same, read]
    simp [Nat.add_right_comm]
  | _ => simp [shape, isBlankChar, Command.isMark]

/-- The token at the front of a text, and what is left to read. -/
theorem lex_cons (c : Char) (t : Text) : ∃ token rest, c :: t = token.text ++ rest ∧
    lex (c :: t) = token :: lex rest ∧ token.text ≠ [] ∧ lex token.text = [token] ∧
      token.Longest rest := by
  obtain ⟨kind, front, rest, rfl, takes, spelled⟩ := shape_takes c t
  refine ⟨⟨kind, c :: front⟩, rest, rfl, lex_front takes.whole, by simp, ?_, ⟨spelled, ?_⟩⟩
  · have alone : lex (c :: (front ++ [])) = ⟨kind, c :: front⟩ :: lex [] :=
      lex_front (by rw [List.append_nil, takes.alone])
    rwa [List.append_nil, lex] at alone
  · rintro k longer ⟨behind, split⟩ spells
    cases longer with
    | nil => exact Nat.zero_le _
    | cons d longer =>
      obtain ⟨rfl, same⟩ : d = c ∧ longer ++ behind = front ++ rest := by simpa using split
      have within := spells.length_le behind
      rw [same, takes.whole] at within
      exact Nat.succ_le_succ within

/-- No text is lost. Every token is the longest that stands at its place, and alone it is read as
the same token. -/
theorem lex_maximal (t : Text) : join (lex t) = t ∧ ∀ before token after,
    lex t = before ++ token :: after →
      token.text ≠ [] ∧ lex token.text = [token] ∧ token.Longest (join after) := by
  refine ⟨join_lex t, ?_⟩
  intro before
  induction before generalizing t with
  | nil =>
    intro token after split
    cases t with
    | nil =>
      rw [lex] at split
      cases split
    | cons c t =>
      obtain ⟨first, rest, -, read, nonempty, alone, longest⟩ := lex_cons c t
      rw [read] at split
      obtain ⟨rfl, rfl⟩ := List.cons.inj split
      exact ⟨nonempty, alone, by rwa [join_lex]⟩
  | cons b before ih =>
    intro token after split
    cases t with
    | nil =>
      rw [lex] at split
      cases split
    | cons c t =>
      obtain ⟨first, rest, -, read, -⟩ := lex_cons c t
      rw [read] at split
      exact ih rest token after (List.cons.inj split).2

end InlineToken

end DocComment
