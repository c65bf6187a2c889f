import DocComment.Proofs.Inline.Level
import DocComment.Proofs.Text.Space

/-!
# Loose text

In loose text, words, white space, delimiters and tags stand in any order, so that spans may cross
and openers may have no partner. Its tokens are of four sorts, and none of white space follows an
opening tag.
-/

set_option autoImplicit false

namespace DocComment.Inline

open InlineToken (lex)

/-! ## Openers and closers -/

theorem solid_tag {tag : Tag} (h : tag.Plain) (bare : tag.attributes = []) : tag.write.Solid := by
  intro c mem
  simp only [Tag.write, bare, List.append_nil, List.mem_cons, List.mem_append, List.not_mem_nil,
    or_false] at mem
  rcases mem with rfl | (slash | letter) | rfl
  · rfl
  · split_ifs at slash
    · obtain rfl := List.mem_singleton.1 slash
      rfl
    · cases slash
  · exact Text.isSpace_of_isAlpha (h.letters c letter)
  · rfl

theorem opener_of_delimiter {style : Style} {mark : Text} (h : style.delimiter? = some mark) :
    Spelling.typed.opener style = mark ∧ Spelling.typed.closer style = mark := by
  simp [Spelling.typed, h]

theorem opener_of_tag {style : Style} (h : style.delimiter? = none) :
    Spelling.typed.opener style = (Tag.opens style.tagName).write ∧
      Spelling.typed.closer style = (Tag.ends style.tagName).write := by
  simp [Spelling.typed, h]

theorem solid_delimiter {style : Style} {mark : Text} (h : style.delimiter? = some mark) :
    mark.Solid ∧ mark ≠ [] := by
  cases style <;> cases h <;> simp [Text.Solid, Text.isSpace]

theorem solid_opener (style : Style) :
    (Spelling.typed.opener style).Solid ∧ Spelling.typed.opener style ≠ [] := by
  cases typed : style.delimiter? with
  | some mark =>
    rw [(opener_of_delimiter typed).1]
    exact solid_delimiter typed
  | none =>
    rw [(opener_of_tag typed).1]
    exact ⟨solid_tag (Tag.plain_opens_style style) rfl, by simp [Tag.write]⟩

theorem solid_closer (style : Style) :
    (Spelling.typed.closer style).Solid ∧ Spelling.typed.closer style ≠ [] := by
  cases typed : style.delimiter? with
  | some mark =>
    rw [(opener_of_delimiter typed).2]
    exact solid_delimiter typed
  | none =>
    rw [(opener_of_tag typed).2]
    exact ⟨solid_tag (Tag.plain_ends_style style) rfl, by simp [Tag.write]⟩

/-! ## Loose text -/

/-- Words, white space, delimiters, and tags of the styles that have no delimiter, in any order. No
white space stands directly behind an opening tag; the flag says whether the text does. -/
inductive LooseText : Bool → Text → Prop
  | nil (behind : Bool) : LooseText behind []
  | blank {c : Char} {t : Text} (blank : c = ' ' ∨ c = '\t' ∨ c = '\n')
    (later : LooseText false t) : LooseText false (c :: t)
  | character {behind : Bool} {c : Char} {t : Text} (solid : Text.isSpace c = false)
    (plain : c ∉ ['\x60', '@', '\\', '<', '*', '~', '&']) (later : LooseText false t) :
    LooseText behind (c :: t)
  | delimiter {behind : Bool} {style : Style} {mark t : Text}
    (typed : style.delimiter? = some mark) (later : LooseText false t) :
    LooseText behind (mark ++ t)
  | opening {behind : Bool} {style : Style} {t : Text} (tagged : style.delimiter? = none)
    (later : LooseText true t) : LooseText behind ((Tag.opens style.tagName).write ++ t)
  | closing {behind : Bool} {style : Style} {t : Text} (tagged : style.delimiter? = none)
    (later : LooseText false t) : LooseText behind ((Tag.ends style.tagName).write ++ t)

/-- A token of loose text; the flags say whether an opening tag stands directly before it, and
whether it is one. -/
inductive LooseToken : Bool → InlineToken → Bool → Prop
  | space {kind : InlineToken.Kind} {t : Text} (space : kind.isSpace = true) (nonempty : t ≠ [])
    (blank : ∀ c ∈ t, Text.isSpace c = true) : LooseToken false ⟨kind, t⟩ false
  | word {behind : Bool} {kind : InlineToken.Kind} {t : Text} (kinds : kind = .text ∨ kind = .quote)
    (nonempty : t ≠ []) (solid : t.Solid) (ampersand : '&' ∉ t) : LooseToken behind ⟨kind, t⟩ false
  | delimiter {behind : Bool} {kind : InlineToken.Kind} {t : Text}
    (kinds : kind = .doubleStar ∨ kind = .star ∨ kind = .doubleTilde)
    (typed : (delimiterStyle kind).delimiter? = some t) : LooseToken behind ⟨kind, t⟩ false
  | opening {behind : Bool} {style : Style} (tagged : style.delimiter? = none) :
    LooseToken behind ⟨.tag, (Tag.opens style.tagName).write⟩ true
  | closing {behind : Bool} {style : Style} (tagged : style.delimiter? = none) :
    LooseToken behind ⟨.tag, (Tag.ends style.tagName).write⟩ false

inductive LooseTokens : Bool → List Lexeme → Prop
  | nil (behind : Bool) : LooseTokens behind []
  | cons {behind opens : Bool} {token : Lexeme} {rest : List Lexeme}
    (here : LooseToken behind ⟨token.kind, token.text⟩ opens) (later : LooseTokens opens rest) :
    LooseTokens behind (token :: rest)

/-! ## Tokens of loose text -/

/-- A token is white space or has none, and none of white space stands behind an opening tag. -/
theorem LooseToken.blank_or_solid {behind opens : Bool} {token : InlineToken}
    (here : LooseToken behind token opens) :
    (token.kind.isSpace = true ∧ behind = false ∧ opens = false ∧
        ∀ c ∈ token.text, Text.isSpace c = true) ∨
      (token.kind.isSpace = false ∧ token.text.Solid) := by
  cases here with
  | space space _ blank => exact .inl ⟨space, rfl, rfl, blank⟩
  | word kinds _ solid _ =>
    right
    rcases kinds with rfl | rfl <;> exact ⟨rfl, solid⟩
  | @delimiter behind kind t kinds typed =>
    right
    have nonspace : kind.isSpace = false := by rcases kinds with rfl | rfl | rfl <;> rfl
    exact ⟨nonspace, (solid_delimiter typed).1⟩
  | opening tagged =>
    right
    exact ⟨rfl, (opener_of_tag tagged).1 ▸ (solid_opener _).1⟩
  | closing tagged =>
    right
    exact ⟨rfl, (opener_of_tag tagged).2 ▸ (solid_closer _).1⟩

theorem LooseToken.nonempty {behind opens : Bool} {token : InlineToken}
    (here : LooseToken behind token opens) : token.text ≠ [] := by
  cases here with
  | space _ nonempty _ => exact nonempty
  | word _ nonempty _ _ => exact nonempty
  | delimiter _ typed => exact (solid_delimiter typed).2
  | opening | closing => simp [Tag.write]

theorem LooseToken.shorter {behind opens : Bool} {token : InlineToken}
    (here : LooseToken behind token opens) {t rest : Text} (lexed : lex t = token :: lex rest) :
    rest.length < t.length := by
  have joined : t = token.text ++ rest := by
    rw [← InlineToken.join_lex t, lexed, InlineToken.join, List.flatMap_cons, ← InlineToken.join,
      InlineToken.join_lex]
  have pos := List.length_pos_iff.2 here.nonempty
  rw [joined, List.length_append]
  omega

theorem LooseTokens.first {rest : List Lexeme} (loose : LooseTokens true rest) :
    ∀ first ∈ rest.head?, first.kind.isSpace = false := by
  intro first mem
  cases loose with
  | nil => cases mem
  | cons here later =>
    cases mem
    rcases here.blank_or_solid with ⟨-, behind, -⟩ | ⟨solid, -⟩
    · cases behind
    · exact solid

theorem LooseText.tail {behind : Bool} {c : Char} {t : Text} (loose : LooseText behind (c :: t))
    (tilde : c ≠ '~') (angle : c ≠ '<') : LooseText false t := by
  generalize same : c :: t = whole at loose
  cases loose with
  | nil => cases same
  | blank _ later =>
    cases same
    exact later
  | character _ _ later =>
    cases same
    exact later
  | @delimiter _ style mark _ typed later =>
    -- behind the first of two stars the second is left
    cases style <;> cases typed <;> cases same
    · exact later
    · have mark : Style.emphasis.delimiter? = some ['*'] := rfl
      exact .delimiter mark later
    · exact absurd rfl tilde
  | opening =>
    cases same
    exact absurd rfl angle
  | closing =>
    cases same
    exact absurd rfl angle

theorem LooseText.dropWhile {p : Char → Bool} (tilde : p '~' = false) (angle : p '<' = false)
    {t : Text} (loose : LooseText false t) : LooseText false (t.dropWhile p) := by
  induction t with
  | nil => exact loose
  | cons c t ih =>
    by_cases inside : p c = true
    · rw [List.dropWhile_cons_of_pos inside]
      apply ih (loose.tail _ _)
      · rintro rfl
        rw [tilde] at inside
        cases inside
      · rintro rfl
        rw [angle] at inside
        cases inside
    · rw [List.dropWhile_cons_of_neg inside]
      exact loose

theorem LooseText.ampersand {behind : Bool} {t : Text} (loose : LooseText behind t) : '&' ∉ t := by
  induction loose with
  | nil => simp
  | blank blank _ ih =>
    rcases blank with rfl | rfl | rfl <;> simp [ih]
  | character _ plain _ ih =>
    simp only [List.mem_cons, not_or] at plain ⊢
    exact ⟨Ne.symm plain.2.2.2.2.2.2.1, ih⟩
  | @delimiter _ style mark _ typed _ ih =>
    have absent : '&' ∉ mark := by cases style <;> cases typed <;> decide
    simp [absent, ih]
  | @opening _ style _ _ _ ih =>
    have absent : '&' ∉ (Tag.opens style.tagName).write := by cases style <;> decide
    simp [absent, ih]
  | @closing _ style _ _ _ ih =>
    have absent : '&' ∉ (Tag.ends style.tagName).write := by cases style <;> decide
    simp [absent, ih]

theorem LooseToken.blanks {c : Char} (h : InlineToken.isBlankChar c = true) (t : Text) :
    LooseToken false ⟨.spaces, c :: t.takeWhile InlineToken.isBlankChar⟩ false := by
  apply LooseToken.space rfl (by simp)
  intro d mem
  rcases List.mem_cons.1 mem with rfl | later
  · exact InlineToken.isSpace_of_isBlankChar h
  · exact InlineToken.isSpace_of_isBlankChar (List.mem_takeWhile_imp later)

theorem LooseToken.text {behind : Bool} {c : Char} (h : InlineToken.isTextChar c = true) {t : Text}
    (ampersand : '&' ∉ c :: t) :
    LooseToken behind ⟨.text, c :: t.takeWhile InlineToken.isTextChar⟩ false := by
  apply LooseToken.word (.inl rfl) (by simp)
  · intro d mem
    have text : InlineToken.isTextChar d = true := by
      rcases List.mem_cons.1 mem with rfl | later
      · exact h
      · exact List.mem_takeWhile_imp later
    simp_all [InlineToken.isTextChar]
  · intro mem
    apply ampersand
    rcases List.mem_cons.1 mem with rfl | later
    · exact List.mem_cons_self
    · exact List.mem_cons_of_mem _ ((List.takeWhile_sublist _).subset later)

/-- A loose text starts with a token of its own. -/
theorem LooseText.front {behind : Bool} {t : Text} (loose : LooseText behind t)
    (nonempty : t ≠ []) :
    ∃ token opens rest, lex t = token :: lex rest ∧ LooseToken behind token opens ∧
      LooseText opens rest := by
  have ampersand := loose.ampersand
  cases loose with
  | nil => exact absurd rfl nonempty
  | @blank c t blank later =>
    by_cases feed : c = '\n'
    · subst feed
      refine ⟨_, _, t, InlineToken.lex_lineFeed t, ?_, later⟩
      exact .space rfl (by simp) (by simp [Text.isSpace])
    · have here : InlineToken.isBlankChar c = true := by
        rcases blank with rfl | rfl | rfl
        · rfl
        · rfl
        · exact absurd rfl feed
      exact ⟨_, _, _, InlineToken.lex_blanks here t, .blanks here t, later.dropWhile rfl rfl⟩
  | @character behind c t solid plain later =>
    by_cases quote : c = '"'
    · subst quote
      refine ⟨_, _, t, InlineToken.lex_quote t, ?_, later⟩
      exact .word (.inr rfl) (by simp) (by simp [Text.Solid, Text.isSpace]) (by simp)
    · have here : InlineToken.isTextChar c = true := by
        simp_all [InlineToken.isTextChar]
      exact ⟨_, _, _, InlineToken.lex_text here t, .text here ampersand, later.dropWhile rfl rfl⟩
  | @delimiter behind style mark t typed later =>
    cases style <;> cases typed
    · by_cases another : t.head? = some '*'
      · obtain ⟨t, rfl⟩ := List.head?_eq_some_iff.1 another
        have onward : LooseText false t := later.tail (by decide) (by decide)
        have double : LooseToken behind ⟨.doubleStar, ['*', '*']⟩ false := .delimiter (.inl rfl) rfl
        exact ⟨_, _, t, InlineToken.lex_doubleStar t, double, onward⟩
      · have single : LooseToken behind ⟨.star, ['*']⟩ false := .delimiter (.inr (.inl rfl)) rfl
        exact ⟨_, _, t, InlineToken.lex_star another, single, later⟩
    · have double : LooseToken behind ⟨.doubleStar, ['*', '*']⟩ false := .delimiter (.inl rfl) rfl
      exact ⟨_, _, t, InlineToken.lex_doubleStar t, double, later⟩
    · have double : LooseToken behind ⟨.doubleTilde, ['~', '~']⟩ false :=
        .delimiter (.inr (.inr rfl)) rfl
      exact ⟨_, _, t, InlineToken.lex_doubleTilde t, double, later⟩
  | opening tagged later =>
    exact ⟨_, _, _, InlineToken.lex_tag (Tag.plain_opens_style _) _, .opening tagged, later⟩
  | closing tagged later =>
    exact ⟨_, _, _, InlineToken.lex_tag (Tag.plain_ends_style _) _, .closing tagged, later⟩

theorem LooseText.tokens {behind glued : Bool} {t : Text} (loose : LooseText behind t) :
    LooseTokens behind (Lexeme.ofTokens glued (lex t)) := by
  induction size : t.length using Nat.strongRecOn generalizing t behind glued with
  | _ _ ih =>
    subst size
    by_cases empty : t = []
    · subst empty
      rw [lex]
      exact .nil behind
    · obtain ⟨token, opens, rest, lexed, here, later⟩ := loose.front empty
      rw [lexed]
      exact .cons here (ih _ (here.shorter lexed) later rfl)

end DocComment.Inline
