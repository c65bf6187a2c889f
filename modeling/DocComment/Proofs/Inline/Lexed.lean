import DocComment.Proofs.Inline.Spelling
import DocComment.Proofs.Inline.TagEnd

/-!
# Tokens at the front of a text

What a token takes is seen from its own characters and the one after it. So a run of text, a
blank, an escape, a code mark and a tag come off the front of a text whatever follows them.
-/

set_option autoImplicit false

namespace DocComment

theorem Command.isMark_cases {mark : Char} (marks : Command.isMark mark = true) :
    mark = '@' ∨ mark = '\\' := by
  simpa [Command.isMark] using marks

namespace InlineToken

theorem lex_front {c : Char} {front rest : Text} {kind : Kind}
    (h : shape c (front ++ rest) = (kind, front.length)) :
    lex (c :: (front ++ rest)) = ⟨kind, c :: front⟩ :: lex rest := by
  rw [lex, h]
  simp

/-! ## Text, blanks and marks -/

theorem isSpace_of_isBlankChar {c : Char} (h : isBlankChar c = true) : Text.isSpace c = true := by
  simp only [isBlankChar, Bool.or_eq_true, beq_iff_eq] at h
  rcases h with rfl | rfl <;> rfl

theorem shape_blank {c : Char} (h : isBlankChar c = true) (t : Text) :
    shape c t = (.spaces, (t.takeWhile isBlankChar).length) := by
  rw [shape, if_pos h]

theorem shape_mark {c : Char} (h : Command.isMark c = true) : shape c = afterMark := by
  funext t
  rcases Command.isMark_cases h with rfl | rfl <;> simp [shape, isBlankChar, Command.isMark]

theorem shape_angle : shape '<' = afterAngle := by
  funext t
  simp [shape, isBlankChar, Command.isMark]

theorem shape_text {c : Char} (h : isTextChar c = true) (t : Text) :
    shape c t = (.text, (t.takeWhile isTextChar).length) := by
  have space : Text.isSpace c = false := by simp_all [isTextChar]
  have blank : isBlankChar c = false := by
    rw [← Bool.not_eq_true] at space ⊢
    exact fun blank => space (isSpace_of_isBlankChar blank)
  have feed : c ≠ '\n' := by
    rintro rfl
    cases space
  have back : c ≠ '\r' := by
    rintro rfl
    cases space
  have mark : Command.isMark c = false := by simp_all [isTextChar, Command.isMark]
  simp_all [shape, isTextChar]

/-- As much of a text as the token at its front can take, if it can take nothing but a run. -/
theorem lex_taken {c : Char} {t : Text} {kind : Kind} {p : Char → Bool}
    (h : shape c t = (kind, (t.takeWhile p).length)) :
    lex (c :: t) = ⟨kind, c :: t.takeWhile p⟩ :: lex (t.dropWhile p) := by
  have cut : t.takeWhile p ++ t.dropWhile p = t := List.takeWhile_append_dropWhile
  have front : lex (c :: (t.takeWhile p ++ t.dropWhile p)) = _ := lex_front (by rw [cut, h])
  rwa [cut] at front

theorem lex_text {c : Char} (h : isTextChar c = true) (t : Text) :
    lex (c :: t) = ⟨.text, c :: t.takeWhile isTextChar⟩ :: lex (t.dropWhile isTextChar) :=
  lex_taken (shape_text h t)

theorem lex_run {c : Char} {run rest : Text} (hc : isTextChar c = true)
    (inside : ∀ d ∈ run, isTextChar d = true) (after : ∀ d ∈ rest.head?, isTextChar d = false) :
    lex (c :: (run ++ rest)) = ⟨.text, c :: run⟩ :: lex rest := by
  rw [lex_text hc, Text.takeWhile_run inside after, Text.dropWhile_run inside after]

theorem lex_blanks {c : Char} (h : isBlankChar c = true) (t : Text) :
    lex (c :: t) = ⟨.spaces, c :: t.takeWhile isBlankChar⟩ :: lex (t.dropWhile isBlankChar) :=
  lex_taken (shape_blank h t)

theorem lex_blank {rest : Text} (after : ∀ c ∈ rest.head?, isBlankChar c = false) :
    lex (' ' :: rest) = ⟨.spaces, [' ']⟩ :: lex rest := by
  have none : ∀ c ∈ ([] : Text), isBlankChar c = true := by simp
  have taken : rest.takeWhile isBlankChar = [] := Text.takeWhile_run none after
  have left : rest.dropWhile isBlankChar = rest := Text.dropWhile_run none after
  rw [lex_blanks rfl, taken, left]

theorem lex_lineFeed (t : Text) : lex ('\n' :: t) = ⟨.lineBreak, ['\n']⟩ :: lex t := by
  show lex ('\n' :: ([] ++ t)) = _
  apply lex_front
  simp [shape, isBlankChar]

theorem lex_quote (t : Text) : lex ('"' :: t) = ⟨.quote, ['"']⟩ :: lex t := by
  show lex ('"' :: ([] ++ t)) = _
  apply lex_front
  simp [shape, isBlankChar, Command.isMark]

theorem lex_doubleStar (t : Text) : lex ('*' :: '*' :: t) = ⟨.doubleStar, ['*', '*']⟩ :: lex t := by
  show lex ('*' :: (['*'] ++ t)) = _
  apply lex_front
  simp [shape, isBlankChar, Command.isMark]

theorem lex_star {t : Text} (after : t.head? ≠ some '*') :
    lex ('*' :: t) = ⟨.star, ['*']⟩ :: lex t := by
  show lex ('*' :: ([] ++ t)) = _
  apply lex_front
  simp [shape, isBlankChar, Command.isMark, after]

theorem lex_doubleTilde (t : Text) :
    lex ('~' :: '~' :: t) = ⟨.doubleTilde, ['~', '~']⟩ :: lex t := by
  show lex ('~' :: (['~'] ++ t)) = _
  apply lex_front
  simp [shape, isBlankChar, Command.isMark]

theorem lex_escape {c : Char} (h : isEscapable c = true) (rest : Text) :
    lex ('\\' :: c :: rest) = ⟨.escape, ['\\', c]⟩ :: lex rest := by
  show lex ('\\' :: ([c] ++ rest)) = _
  apply lex_front
  simp [shape, isBlankChar, Command.isMark, afterMark, h]

theorem lex_codeMark (rest : Text) :
    lex ('\x60' :: rest) = ⟨.codeMark, ['\x60']⟩ :: lex rest := by
  show lex ('\x60' :: ([] ++ rest)) = _
  apply lex_front
  simp [shape, isBlankChar, Command.isMark]

theorem afterMark_escape {c : Char} (h : isEscapable c = true) (t : Text) :
    afterMark (c :: t) = (.escape, 1) := by
  rw [afterMark, if_pos h]

theorem isEscapable_of_starts {c : Char} (h : (c.isAlpha || c == '_') = true) :
    isEscapable c = false := by
  rcases Bool.or_eq_true_iff.1 h with letter | under
  · simp [isEscapable, Text.ne_of_isAlpha letter]
  · rw [beq_iff_eq.1 under]
    rfl

theorem afterMark_command {c : Char} (letter : (c.isAlpha || c == '_') = true) {name rest : Text}
    (inside : ∀ d ∈ name, Command.isNameChar d = true)
    (after : ∀ d ∈ rest.head?, Command.isNameChar d = false)
    (formula : ¬(c = 'f' ∧ (name ++ rest).head? = some '$')) :
    afterMark (c :: (name ++ rest)) = (.command, (c :: name).length) := by
  rw [afterMark, if_neg (by simp [isEscapable_of_starts letter]), if_neg formula, if_pos letter,
    Text.takeWhile_run inside after, List.length_cons, Nat.add_comm]

/-! ## Code -/

theorem afterMark_fits (t : Text) : (afterMark t).2 ≤ t.length := by
  cases t with
  | nil => exact Nat.le_refl _
  | cons c t =>
    have within := (List.takeWhile_sublist (l := t) Command.isNameChar).length_le
    rw [afterMark, List.length_cons]
    split_ifs with escapable formula letter
    · exact Nat.le_add_left 1 _
    · have := List.length_pos_of_mem (List.mem_of_mem_head? formula.2)
      show 2 ≤ t.length + 1
      omega
    · show 1 + _ ≤ t.length + 1
      omega
    · exact Nat.zero_le _

theorem shape_fits {c : Char} (hc : c ≠ '<') (t : Text) : (shape c t).2 ≤ t.length := by
  have within (p : Char → Bool) : (t.takeWhile p).length ≤ t.length :=
    (List.takeWhile_sublist p).length_le
  have first {d : Char} (h : t.head? = some d) : 1 ≤ t.length :=
    List.length_pos_of_mem (List.mem_of_mem_head? h)
  unfold shape
  split_ifs
  · exact within _
  · exact Nat.zero_le _
  · next h => exact first h.2
  · exact afterMark_fits t
  · exact Nat.zero_le _
  · next h => exact first h
  · exact Nat.zero_le _
  · next h => exact first h
  · exact Nat.zero_le _
  · exact Nat.zero_le _
  · exact Nat.zero_le _
  · exact within _

theorem head?_before {d mark : Char} (h : mark ≠ d) (t rest : Text) :
    (t ++ mark :: rest).head? = some d ↔ t.head? = some d := by
  cases t with
  | nil => simp [h]
  | cons c t => simp

theorem afterMark_before (t rest : Text) : afterMark (t ++ '\x60' :: rest) = afterMark t := by
  cases t with
  | nil => rfl
  | cons c t =>
    have name : Command.isNameChar '\x60' = false := rfl
    simp [afterMark, Text.takeWhile_before name, head?_before, -List.head?_append]

theorem shape_before {c : Char} (hc : c ≠ '<') (t rest : Text) :
    shape c (t ++ '\x60' :: rest) = shape c t := by
  have blank : isBlankChar '\x60' = false := rfl
  have text : isTextChar '\x60' = false := rfl
  simp [shape, hc, Text.takeWhile_before blank, Text.takeWhile_before text, head?_before,
    afterMark_before, -List.head?_append]

theorem lex_code {code : Text} (h : ∀ c ∈ code, c ≠ '<') (rest : Text) :
    lex (code ++ '\x60' :: rest) = lex code ++ ⟨.codeMark, ['\x60']⟩ :: lex rest := by
  fun_induction lex code with
  | case1 => exact lex_codeMark rest
  | case2 c t here ih =>
    have same := shape_before (h c (by simp)) t rest
    have fits := shape_fits (h c (by simp)) t
    have later := ih fun d mem => h d (by simp [List.mem_of_mem_drop mem])
    rw [List.cons_append, lex, same, List.take_append_of_le_length fits,
      List.drop_append_of_le_length fits, later, List.cons_append]

theorem shape_codeMark {c : Char} {t : Text} (h : (shape c t).1 = .codeMark) : c = '\x60' := by
  unfold shape afterMark afterAngle afterTagStart at h
  grind

/-- Only a code mark reads as one. -/
theorem kind_of_mem_lex {t : Text} (h : '\x60' ∉ t) : ∀ token ∈ lex t, token.kind ≠ .codeMark := by
  fun_induction lex t with
  | case1 => simp
  | case2 c t here ih =>
    intro token mem
    rcases List.mem_cons.1 mem with rfl | later
    · intro mark
      rw [shape_codeMark mark] at h
      exact h List.mem_cons_self
    · apply ih _ token later
      intro inside
      exact h (List.mem_cons_of_mem _ (List.mem_of_mem_drop inside))

/-! ## Tags -/

end InlineToken

/-- A tag whose name is a word, and whose attributes stand apart from it. -/
structure Tag.Plain (tag : Tag) : Prop where
  nonempty : tag.name ≠ []
  letters : ∀ c ∈ tag.name, c.isAlpha = true
  lower : Text.lower tag.name = tag.name
  apart : ∀ c ∈ tag.attributes.head?, c = ' '
  angles : ∀ c ∈ tag.attributes, c ≠ '<' ∧ c ≠ '>'
  slash : tag.attributes.getLast? ≠ some '/'

namespace Tag

variable {tag : Tag}

theorem Plain.head (h : tag.Plain) : ∃ c name, tag.name = c :: name ∧ c.isAlpha = true := by
  obtain ⟨c, name, same⟩ := List.exists_cons_of_ne_nil h.nonempty
  exact ⟨c, name, same, h.letters c (by simp [same])⟩

theorem Plain.isAlphanum_name (h : tag.Plain) : ∀ c ∈ tag.name, c.isAlphanum = true := by
  intro c mem
  simp [Char.isAlphanum, h.letters c mem]

theorem Plain.isAlphanum_attributes (h : tag.Plain) {rest : Text}
    (after : ∀ c ∈ rest.head?, c.isAlphanum = false) :
    ∀ c ∈ (tag.attributes ++ rest).head?, c.isAlphanum = false := by
  intro c mem
  cases same : tag.attributes with
  | nil =>
    rw [same] at mem
    exact after c mem
  | cons d attributes =>
    obtain rfl : d = c := by simpa [same] using mem
    rw [h.apart d (by simp [same])]
    rfl

/-- What stands between the angle brackets. -/
def inner (tag : Tag) : Text := (if tag.closing then ['/'] else []) ++ tag.name ++ tag.attributes

theorem Plain.getLast?_inner (h : tag.Plain) : tag.inner.getLast? ≠ some '/' := by
  rw [inner, List.getLast?_append]
  cases last : tag.attributes.getLast? with
  | some c =>
    rw [last.symm, Option.or_of_isSome (by simp [last])]
    exact h.slash
  | none =>
    rw [Option.none_or, List.getLast?_append]
    cases lastName : tag.name.getLast? with
    | some c =>
      have alpha := h.letters c (List.mem_of_getLast? lastName)
      simpa using Text.ne_of_isAlpha alpha rfl
    | none => exact absurd (List.getLast?_eq_none_iff.1 lastName) h.nonempty

theorem read?_write (h : tag.Plain) : read? tag.write = some tag := by
  obtain ⟨c, name, same, alpha⟩ := h.head
  have front : Text.dropPrefix? ['<'] tag.write = some (tag.inner ++ ['>']) :=
    Text.dropPrefix?_eq_some.2 rfl
  have back : Text.dropSuffix? ['>'] (tag.inner ++ ['>']) = some tag.inner := by
    simp [Text.dropSuffix?, Text.dropPrefix?]
  have slash : Text.dropSuffix? ['/'] tag.inner = none := by
    cases cut : Text.dropSuffix? ['/'] tag.inner with
    | none => rfl
    | some body =>
      have ends := h.getLast?_inner
      rw [Text.dropSuffix?_eq_some.1 cut] at ends
      simp at ends
  have after : ∀ c ∈ (tag.attributes ++ []).head?, c.isAlphanum = false :=
    h.isAlphanum_attributes (by simp)
  rw [List.append_nil] at after
  have word : (tag.name ++ tag.attributes).takeWhile Char.isAlphanum = tag.name :=
    Text.takeWhile_run h.isAlphanum_name after
  have others : (tag.name ++ tag.attributes).dropWhile Char.isAlphanum = tag.attributes :=
    Text.dropWhile_run h.isAlphanum_name after
  have named : tag.name.isEmpty = false := by simp [same]
  have body : (Text.dropPrefix? ['/'] tag.inner).getD tag.inner = tag.name ++ tag.attributes ∧
      decide (tag.inner.head? = some '/') = tag.closing := by
    have first : '/' ≠ c := (Text.ne_of_isAlpha alpha rfl).symm
    cases closing : tag.closing with
    | false => simp [inner, closing, same, Text.dropPrefix?, first, first.symm]
    | true => simp [inner, closing, Text.dropPrefix?]
  unfold read?
  rw [front, Option.bind_eq_bind, Option.bind_some, back, Option.bind_some]
  dsimp only
  rw [slash, Option.getD_none, body.1, word, others, named, body.2, h.lower]
  rfl

theorem plain_opens {name : Text} (nonempty : name ≠ []) (letters : ∀ c ∈ name, c.isAlpha = true)
    (lower : Text.lower name = name) : (opens name).Plain :=
  ⟨nonempty, letters, lower, by simp [opens], by simp [opens], by simp [opens]⟩

theorem plain_ends {name : Text} (nonempty : name ≠ []) (letters : ∀ c ∈ name, c.isAlpha = true)
    (lower : Text.lower name = name) : (ends name).Plain :=
  ⟨nonempty, letters, lower, by simp [ends], by simp [ends], by simp [ends]⟩

theorem plain_linkTo {url : Text} (h : ∀ c ∈ url, c ≠ '<' ∧ c ≠ '>') : (linkTo url).Plain := by
  have slash : (linkTo url).attributes.getLast? ≠ some '/' := by
    rw [linkTo, List.getLast?_append]
    simp
  refine ⟨by simp [linkTo], by simp [linkTo], rfl, by simp [linkTo], ?_, slash⟩
  intro c mem
  simp only [linkTo, List.mem_append, List.mem_singleton] at mem
  rcases mem with (front | inside) | rfl
  · have plain : ∀ c ∈ " href=\"".toList, c ≠ '<' ∧ c ≠ '>' := by simp
    exact plain c front
  · exact h c inside
  · decide

theorem plain_break : (opens "br".toList).Plain := by
  apply plain_opens
  · decide
  · simp
  · rfl

theorem plain_opens_style (style : Style) : (opens style.tagName).Plain := by
  apply plain_opens
  · cases style <;> decide
  · cases style <;> simp [Style.tagName]
  · cases style <;> rfl

theorem plain_ends_style (style : Style) : (ends style.tagName).Plain := by
  apply plain_ends
  · cases style <;> decide
  · cases style <;> simp [Style.tagName]
  · cases style <;> rfl

theorem plain_ends_link : (ends ['a']).Plain := by
  apply plain_ends
  · decide
  · simp
  · rfl

theorem value?_quoted {value : Text} (h : '"' ∉ value) (rest : Text) :
    value? ('"' :: (value ++ '"' :: rest)) = some (value, value.length + 2) := by
  have other : ∀ c ∈ value, (c == '"') = false :=
    fun c mem => beq_eq_false_iff_ne.2 (ne_of_mem_of_not_mem mem h)
  simp [value?, Text.splitFirst?_at other]

theorem attributeAt?_quoted {c : Char} {key value : Text} (start : isKeyStart c = true)
    (inside : ∀ d ∈ key, isKeyChar d = true) (h : '"' ∉ value) (rest : Text) :
    ∃ n, attributeAt? c (key ++ '=' :: '"' :: (value ++ '"' :: rest)) =
      some (⟨c :: key, value⟩, n) := by
  have equals (t : Text) : Text.trimStart ('=' :: t) = '=' :: t := by
    simp [Text.trimStart, show Text.isSpace '=' = false from rfl]
  have quote (t : Text) : Text.trimStart ('"' :: t) = '"' :: t := by
    simp [Text.trimStart, show Text.isSpace '"' = false from rfl]
  have after : ∀ d ∈ ('=' :: '"' :: (value ++ '"' :: rest)).head?, isKeyChar d = false := by
    intro d mem
    obtain rfl : '=' = d := by simpa using mem
    rfl
  rw [attributeAt?, if_pos start, Text.takeWhile_run inside after, Text.dropWhile_run inside after]
  simp only [equals, quote, value?_quoted h]
  exact ⟨_, rfl⟩

theorem valueOf?_href {url : Text} (h : '"' ∉ url) :
    (linkTo url).valueOf? "href".toList = some url := by
  have here : ∃ n, attributeAt? 'h' (['r', 'e', 'f'] ++ '=' :: '"' :: (url ++ ['"'])) =
      some (⟨"href".toList, url⟩, n) := attributeAt?_quoted rfl (by simp [isKeyChar]) h []
  obtain ⟨n, here⟩ := here
  have blank (t : Text) : attributeAt? ' ' t = none := rfl
  have spelled : (linkTo url).attributes =
      ' ' :: 'h' :: (['r', 'e', 'f'] ++ '=' :: '"' :: (url ++ ['"'])) := by simp [linkTo]
  rw [valueOf?, spelled, attributesIn, blank]
  dsimp only
  rw [attributesIn, here]
  rfl

end Tag

namespace InlineToken

theorem afterTagStart_tag {tag : Tag} (h : tag.Plain) (rest : Text) :
    afterTagStart (tag.name ++ (tag.attributes ++ '>' :: rest)) =
      (.tag, tag.name.length + tag.attributes.length + 1) := by
  have apart : ∀ d ∈ tag.attributes.head?, Text.isSpace d = true := by
    intro d mem
    rw [h.apart d mem]
    rfl
  have closes : Closes (tag.attributes ++ ([] ++ ['>'])) := .mk _ [] apart h.angles (.inl rfl)
  have read := afterTagStart_run h.isAlphanum_name (closes.head rest)
  rw [tagEnd_closes closes] at read
  simpa [Nat.add_assoc] using read

theorem lex_tag {tag : Tag} (h : tag.Plain) (rest : Text) :
    lex (tag.write ++ rest) = ⟨.tag, tag.write⟩ :: lex rest := by
  obtain ⟨c, name, same, alpha⟩ := h.head
  have opening : (if tag.closing then ['/'] else []) = [] ∨
      (if tag.closing then ['/'] else []) = ['/'] := by
    cases tag.closing <;> simp
  have read := afterAngle_slash opening alpha (name ++ (tag.attributes ++ '>' :: rest))
  rw [← List.cons_append, ← same, afterTagStart_tag h rest] at read
  have written : tag.write ++ rest =
      '<' :: (((if tag.closing then ['/'] else []) ++ tag.name ++ tag.attributes ++ ['>']) ++
        rest) := by simp [Tag.write]
  rw [written]
  apply lex_front
  rw [shape_angle]
  simpa [Nat.add_assoc] using read

end InlineToken

end DocComment
