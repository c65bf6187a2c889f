import DocComment.Proofs.Inline.Lexed
import DocComment.Proofs.Text.Space

/-!
# Levels, step by step

A level is read one token at a time, and what a token does is one of four things. The relation
`Reads` has a rule for each of them and one for the end of the text; whatever holds of every level
is shown along it.
-/

set_option autoImplicit false

namespace DocComment.Inline

/-! ## Lexemes -/

namespace Lexeme

/-- What follows some tokens only has to know whether the last of them is a space. -/
theorem ofTokens_append (glued : Bool) (a b : List InlineToken) :
    ∃ later, ofTokens glued (a ++ b) = ofTokens glued a ++ ofTokens later b := by
  induction a generalizing glued with
  | nil => exact ⟨glued, rfl⟩
  | cons token a ih =>
    obtain ⟨later, same⟩ := ih (!token.kind.isSpace)
    exact ⟨later, congrArg _ same⟩

theorem join_cons (token : Lexeme) (rest : List Lexeme) :
    join (token :: rest) = token.text ++ join rest := rfl

theorem join_ofTokens (glued : Bool) (tokens : List InlineToken) :
    join (ofTokens glued tokens) = InlineToken.join tokens := by
  induction tokens generalizing glued with
  | nil => rfl
  | cons token tokens ih =>
    simp only [join, InlineToken.join] at ih
    simp [join, InlineToken.join, ofTokens, ih]

theorem mem_ofTokens {glued : Bool} {tokens : List InlineToken} {token : Lexeme}
    (h : token ∈ ofTokens glued tokens) : ⟨token.kind, token.text⟩ ∈ tokens := by
  induction tokens generalizing glued with
  | nil => cases h
  | cons first tokens ih =>
    rcases List.mem_cons.1 h with rfl | later
    · exact List.mem_cons_self
    · exact List.mem_cons_of_mem _ (ih later)

end Lexeme

/-- What stands before the first token that `p` accepts. -/
theorem upTo?_at {p : Lexeme → Bool} {front : List Lexeme}
    (before : ∀ token ∈ front, p token = false) {mark : Lexeme} (here : p mark = true)
    (rest : List Lexeme) :
    upTo? p (front ++ mark :: rest) = some (Lexeme.join front, front.length + 1) := by
  have found : (front ++ mark :: rest).findIdx? p = some front.length := by
    rw [List.findIdx?_append, List.findIdx?_eq_none_iff.2 before]
    simp [List.findIdx?_cons, here]
  simp [upTo?, found]

/-! ## Equations -/

section

variable {outer : List Closer} {closer : Closer} {out : Output} {token : Lexeme}
  {rest : List Lexeme}

theorem readLevel_nil (outer : List Closer) (closer : Closer) (out : Output) :
    (readLevel outer closer out []).1 = ⟨out.toNodes, false, []⟩ := by
  rw [readLevel]

theorem readLevel_close (h : step outer closer out token rest = .close) :
    (readLevel outer closer out (token :: rest)).1 = ⟨out.toNodes, true, rest⟩ := by
  rw [readLevel]
  split
  · rfl
  all_goals simp_all only [reduceCtorEq]

theorem readLevel_proceed {next : Output} {taken : Nat}
    (h : step outer closer out token rest = .proceed next taken) :
    (readLevel outer closer out (token :: rest)).1 =
      (readLevel outer closer next (rest.drop taken)).1 := by
  rw [readLevel]
  split
  case h_3 here =>
    cases here.symm.trans h
    rfl
  all_goals simp_all only [reduceCtorEq]

theorem readLevel_alone {next : Output} (h : step outer closer out token rest = .proceed next 0) :
    (readLevel outer closer out (token :: rest)).1 = (readLevel outer closer next rest).1 :=
  readLevel_proceed h

theorem readLevel_nest {inner : Closer} {span : Span}
    (h : step outer closer out token rest = .nest inner span) {body : EndedLevel}
    (inside : (readLevel (closer :: outer) inner .empty rest).1 = body) :
    (readLevel outer closer out (token :: rest)).1 =
      (readLevel outer closer (out.addSpan token.text span body) body.rest).1 := by
  subst inside
  rw [readLevel]
  split
  case h_4 here =>
    cases here.symm.trans h
    rfl
  all_goals simp_all only [reduceCtorEq]

end

/-! ## Single tokens -/

section

variable {outer : List Closer} {closer : Closer} {out : Output} {tokens : List Lexeme}

theorem step_space {token : Lexeme} (h : token.kind.isSpace = true) :
    step outer closer out token tokens = .proceed out.addSpace 0 := by
  obtain ⟨kind, t, glued⟩ := token
  cases kind with
  | spaces => rfl
  | lineBreak => rfl
  | _ => cases h

/-- A code mark takes everything up to the next one. -/
theorem step_codeMark {mark end' : Lexeme} {front : List Lexeme} (kind : mark.kind = .codeMark)
    (kind' : end'.kind = .codeMark) (before : ∀ token ∈ front, token.kind ≠ .codeMark) :
    step outer closer out mark (front ++ end' :: tokens) =
      .proceed (out.addNode (.codeSpan (codeText (Lexeme.join front)))) (front.length + 1) := by
  have others : ∀ token ∈ front, (token.kind == .codeMark) = false := by simpa using before
  have found : upTo? (·.kind == .codeMark) (front ++ end' :: tokens) =
      some (Lexeme.join front, front.length + 1) := upTo?_at others (by simp [kind']) tokens
  rw [step, kind]
  dsimp only
  rw [found]

theorem step_tag {tag : Tag} (h : tag.Plain) (glued : Bool) :
    step outer closer out ⟨.tag, tag.write, glued⟩ tokens =
      if tag.closing then closingTag outer closer out tag.write tag.name
      else openingTag out tag.write tag tokens := by
  rw [step, Tag.read?_write h]

theorem closes_ends {name : Text} (h : (Tag.ends name).Plain) (glued : Bool) :
    Lexeme.closes name ⟨.tag, (Tag.ends name).write, glued⟩ = true := by
  rw [Lexeme.closes, Tag.read?_write h]
  simp [Tag.closes, Tag.ends]

/-- The tag of a style opens a level if a tag that closes it follows. -/
theorem openingTag_style (style : Style) (raw : Text) :
    openingTag out raw (Tag.opens style.tagName) tokens =
      if tokens.any (Lexeme.closes style.tagName) then
        .nest (.tag style.tagName) (.styled style)
      else .proceed (out.write raw) 0 := by
  have others : style.tagName ≠ "br".toList ∧
      ¬(style.tagName = "code".toList ∨ style.tagName = "tt".toList) ∧
      style.tagName ≠ "a".toList := by cases style <;> decide
  obtain ⟨notBreak, notCode, notLink⟩ := others
  have name : (Tag.opens style.tagName).name = style.tagName := rfl
  have read : Style.ofTag? style.tagName = some style := by cases style <;> rfl
  rw [openingTag, name, if_neg notBreak, if_neg notCode, if_neg notLink, read]
  cases tokens.any (Lexeme.closes style.tagName) <;> rfl

theorem openingTag_link {url : Text} (h : '"' ∉ url) (raw : Text)
    (closed : tokens.any (Lexeme.closes ['a']) = true) :
    openingTag out raw (Tag.linkTo url) tokens = .nest (.tag ['a']) (.link url) := by
  have name : (Tag.linkTo url).name = ['a'] := rfl
  rw [openingTag, name, if_neg (by decide), if_neg (by decide), if_pos (by decide),
    Tag.valueOf?_href h, closed]
  rfl

theorem openingTag_stays (out : Output) (raw : Text) (tag : Tag) (tokens : List Lexeme) :
    openingTag out raw tag tokens ≠ .close ∧ openingTag out raw tag tokens ≠ .leave := by
  unfold openingTag
  grind

theorem step_finish (out : Output) (token : Lexeme) (rest : List Lexeme) :
    step [] .finish out token rest ≠ .close ∧ step [] .finish out token rest ≠ .leave := by
  have opening := openingTag_stays out token.text
  have closing (name : Text) :
      closingTag [] .finish out token.text name = .proceed (out.write token.text) 0 := rfl
  unfold step
  split
  all_goals grind

end

/-! ## The ends of a text -/

theorem trimFirst_eq_self {nodes : List Node}
    (h : ∀ t, nodes.head? = some (.text t) → ∀ c ∈ t.head?, Text.isSpace c = false) :
    trimFirst nodes = nodes := by
  cases nodes with
  | nil => rfl
  | cons node rest =>
    cases node with
    | text t => rw [trimFirst, mapText, Text.trimStart_eq_self (h t rfl)]
    | _ => rfl

theorem trimLast_eq_self {nodes : List Node}
    (h : ∀ t, nodes.getLast? = some (.text t) → ∀ c ∈ t.getLast?, Text.isSpace c = false) :
    trimLast nodes = nodes := by
  fun_induction trimLast nodes with
  | case1 => rfl
  | case2 node =>
    cases node with
    | text t => rw [mapText, Text.trimEnd_eq_self (h t rfl)]
    | _ => rfl
  | case3 node rest more ih =>
    rw [ih]
    intro t last
    apply h t
    rw [List.getLast?_cons, last]
    rfl

theorem trimLast_concat (front : List Node) (node : Node) :
    trimLast (front ++ [node]) = front ++ [mapText Text.trimEnd node] := by
  induction front with
  | nil => rfl
  | cons first front ih =>
    cases front with
    | nil => rfl
    | cons second front => exact congrArg (first :: ·) ih

/-! ## The whole of a level -/

/-- `Reads outer closer out tokens level`: a level that stands at `out` before `tokens`, and that
`closer` ends, becomes `level`. -/
inductive Reads : List Closer → Closer → Output → List Lexeme → EndedLevel → Prop
  | finish (outer : List Closer) (closer : Closer) (out : Output) :
    Reads outer closer out [] ⟨out.toNodes, false, []⟩
  | close {outer : List Closer} {closer : Closer} {out : Output} {token : Lexeme}
    {rest : List Lexeme} (here : step outer closer out token rest = .close) :
    Reads outer closer out (token :: rest) ⟨out.toNodes, true, rest⟩
  | leave {outer : List Closer} {closer : Closer} {out : Output} {token : Lexeme}
    {rest : List Lexeme} (here : step outer closer out token rest = .leave) :
    Reads outer closer out (token :: rest) ⟨out.toNodes, false, token :: rest⟩
  | proceed {outer : List Closer} {closer : Closer} {out next : Output} {token : Lexeme}
    {rest : List Lexeme} {taken : Nat} {level : EndedLevel}
    (here : step outer closer out token rest = .proceed next taken)
    (later : Reads outer closer next (rest.drop taken) level) :
    Reads outer closer out (token :: rest) level
  | nest {outer : List Closer} {closer : Closer} {out : Output} {token : Lexeme}
    {rest : List Lexeme} {inner : Closer} {span : Span} {body level : EndedLevel}
    (here : step outer closer out token rest = .nest inner span)
    (inside : Reads (closer :: outer) inner .empty rest body)
    (later : Reads outer closer (out.addSpan token.text span body) body.rest level) :
    Reads outer closer out (token :: rest) level

theorem reads_readLevel (outer : List Closer) (closer : Closer) (out : Output)
    (tokens : List Lexeme) :
    Reads outer closer out tokens (readLevel outer closer out tokens).1 := by
  fun_induction readLevel outer closer out tokens with
  | case1 outer closer out => exact .finish outer closer out
  | case2 outer closer out token rest here => exact .close here
  | case3 outer closer out token rest here => exact .leave here
  | case4 outer closer out token rest next taken here ended ih => exact .proceed here ih
  | case5 outer closer out token rest inner span here body ended inside later =>
    exact .nest here inside later

/-- The outermost level reads everything. -/
theorem Reads.rest_eq_nil {out : Output} {tokens : List Lexeme} {level : EndedLevel}
    (reads : Reads [] .finish out tokens level) : level.closed = false ∧ level.rest = [] := by
  generalize outermost : ([] : List Closer) = outer at reads
  generalize whole : Closer.finish = closer at reads
  induction reads with
  | finish => exact ⟨rfl, rfl⟩
  | close here =>
    subst outermost whole
    exact absurd here (step_finish _ _ _).1
  | leave here =>
    subst outermost whole
    exact absurd here (step_finish _ _ _).2
  | proceed here later ih => exact ih outermost whole
  | nest here inside later ihInside ihLater => exact ihLater outermost whole

/-- Spaces at the front of a level are not written. -/
theorem readLevel_spaces (outer : List Closer) (closer : Closer) (tokens : List Lexeme) :
    (readLevel outer closer .empty tokens).1 =
      (readLevel outer closer .empty (tokens.dropWhile fun token => token.kind.isSpace)).1 := by
  induction tokens with
  | nil => rfl
  | cons token rest ih =>
    rw [List.dropWhile_cons]
    by_cases space : token.kind.isSpace = true
    · have here : step outer closer .empty token rest = .proceed .empty 0 := step_space space
      rw [if_pos space, readLevel_alone here, ih]
    · rw [if_neg space]

end DocComment.Inline
