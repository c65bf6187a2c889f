import DocComment.Proofs.Inline.Address
import DocComment.Proofs.Inline.Level
import DocComment.Proofs.Text.Space
import Mathlib.Data.List.Chain

/-!
# Marked text is read back

Reading a marked text brings a level forward piece by piece, and no token of a piece reaches into
the next one. A piece with contents opens a level of its own that ends with the tag written for
it. So the nodes that were written come back, however deep they nest.
-/

set_option autoImplicit false

namespace DocComment.Inline

open InlineToken (lex isTextChar isBlankChar)

/-! ## What has a marked spelling -/

/-- Text that holds no white space but single spaces, and that no delimiter interrupts. -/
structure PlainText (t : Text) : Prop where
  spaces : ∀ c ∈ t, Text.isSpace c = true → c = ' '
  single : t.IsChain fun c d => c = ' ' → d ≠ ' '
  marks : ∀ c ∈ t, c ≠ '\x60' ∧ c ≠ '*'

theorem PlainText.isSpace_eq {t : Text} (plain : PlainText t) {c : Char} (mem : c ∈ t)
    (other : c ≠ ' ') : Text.isSpace c = false := by
  rw [← Bool.not_eq_true]
  exact fun space => other (plain.spaces c mem space)

/-- What stands before a node on its level. -/
inductive Place where
  | start
  | afterText
  | afterNode

/-- What can be written on a level from a place on. -/
inductive Writable : Place → List Node → Prop
  | nil (place : Place) : Writable place []
  | text {place : Place} {t : Text} {rest : List Node} (apart : place ≠ .afterText)
    (nonempty : t ≠ []) (plain : PlainText t) (front : place = .start → t.head? ≠ some ' ')
    (later : Writable .afterText rest) : Writable place (.text t :: rest)
  | styled {place : Place} {body rest : List Node} (style : Style) (inside : Writable .start body)
    (later : Writable .afterNode rest) : Writable place (.styled style body :: rest)
  | link {place : Place} {url : Text} {body rest : List Node}
    (plain : ∀ c ∈ url, c ≠ '"' ∧ c ≠ '<' ∧ c ≠ '>') (inside : Writable .start body)
    (later : Writable .afterNode rest) : Writable place (.link url body :: rest)
  | codeSpan {place : Place} {code : Text} {rest : List Node}
    (plain : ∀ c ∈ code, c ≠ '\x60' ∧ c ≠ '<' ∧ c ≠ '\n')
    (later : Writable .afterNode rest) : Writable place (.codeSpan code :: rest)
  | hardBreak {place : Place} {rest : List Node} (later : Writable .afterNode rest) :
    Writable place (.hardBreak :: rest)

/-! ## What is written on a level -/

namespace Output

theorem toNodes_write {out : Output} {t : Text} (empty : out.text = []) (nonempty : t ≠ []) :
    (out.write t).toNodes = out.nodes ++ [.text t] := by
  simp [write, toNodes, empty, nonempty]

theorem toNodes_addNode (out : Output) (node : Node) :
    (out.addNode node).toNodes = out.toNodes ++ [node] := rfl

/-- Whether a level that has been written so far goes on at a place. -/
def StandsAt (out : Output) : Place → Prop
  | .start => out = .empty
  | .afterText => True
  | .afterNode => out.text = [] ∧ out.nodes ≠ []

theorem standsAt_addNode (out : Output) (node : Node) : (out.addNode node).StandsAt .afterNode := by
  constructor
  · rfl
  · simp [addNode]

theorem toNodes_splice {place : Place} {nodes : List Node} (written : Writable place nodes)
    {out : Output} (stands : out.StandsAt place) :
    (out.splice nodes).toNodes = out.toNodes ++ nodes := by
  induction written generalizing out with
  | nil => simp [splice]
  | @text place t rest apart nonempty _ _ _ ih =>
    have empty : out.text = [] := by
      cases place with
      | start => rw [stands]; rfl
      | afterText => exact absurd rfl apart
      | afterNode => exact stands.1
    have before : out.toNodes = out.nodes := by simp [toNodes, empty]
    rw [splice, ih trivial, toNodes_write empty nonempty, before, List.append_assoc]
    rfl
  | styled _ _ _ _ ih | link _ _ _ _ ih | codeSpan _ _ ih | hardBreak _ ih =>
    rw [splice, ih (standsAt_addNode _ _), toNodes_addNode, List.append_assoc]
    · rfl
    · simp

/-- Whether a text can follow what is written on a level without losing its first space. -/
def Admits (out : Output) (t : Text) : Prop :=
  t.head? = some ' ' → (out.text ≠ [] ∨ out.nodes ≠ []) ∧ out.text.getLast? ≠ some ' '

theorem addSpace_admits {out : Output} {t : Text} (h : out.Admits (' ' :: t)) :
    out.addSpace = out.write [' '] := by
  obtain ⟨present, last⟩ := h rfl
  have first : (out.text.isEmpty && out.nodes.isEmpty) = false := by
    rcases present with text | nodes
    · simp [text]
    · simp [nodes]
  simp [addSpace, first, last]

theorem write_write (out : Output) (a b : Text) : (out.write a).write b = out.write (a ++ b) := by
  simp [write]

theorem admits_write (out : Output) {front t : Text} {c : Char}
    (single : c = ' ' → t.head? ≠ some ' ') : (out.write (front ++ [c])).Admits t := by
  intro first
  constructor
  · left
    simp [write]
  · intro last
    apply single _ first
    simpa [write] using last

theorem admits_at {out : Output} {place : Place} (stands : out.StandsAt place)
    (apart : place ≠ .afterText) {t : Text} (front : place = .start → t.head? ≠ some ' ') :
    out.Admits t := by
  intro first
  cases place with
  | start => exact absurd first (front rfl)
  | afterText => exact absurd rfl apart
  | afterNode =>
    constructor
    · exact .inr stands.2
    · simp [stands.1]

end Output

/-! ## Passing a piece of text -/

/-- Reading `t` before `rest` brings a level from `out` to `next`, and no token reaches from the
one text into the other. -/
def Passes (outer : List Closer) (closer : Closer) (rest : Text) (out : Output) (t : Text)
    (next : Output) : Prop :=
  ∃ tokens, lex (t ++ rest) = tokens ++ lex rest ∧
    ∀ glued, ∃ later,
      (readLevel outer closer out (Lexeme.ofTokens glued (tokens ++ lex rest))).1 =
        (readLevel outer closer next (Lexeme.ofTokens later (lex rest))).1

/-- What can follow a marked text: a tag, code or nothing. -/
def Seam (rest : Text) : Prop := ∀ c ∈ rest.head?, c = '<' ∨ c = '\x60'

section

variable {outer : List Closer} {closer : Closer} {rest : Text} {out : Output}

namespace Passes

theorem nil : Passes outer closer rest out [] out := by
  refine ⟨[], rfl, ?_⟩
  intro glued
  exact ⟨glued, rfl⟩

theorem intro {t : Text} {next : Output} {front tokens : List InlineToken}
    (lexed : lex (t ++ rest) = tokens) (split : tokens = front ++ lex rest)
    (reads : ∀ glued, ∃ later, (readLevel outer closer out (Lexeme.ofTokens glued tokens)).1 =
      (readLevel outer closer next (Lexeme.ofTokens later (lex rest))).1) :
    Passes outer closer rest out t next := by
  subst split
  exact ⟨front, lexed, reads⟩

theorem append {a b : Text} {next last : Output}
    (first : Passes outer closer (b ++ rest) out a next)
    (second : Passes outer closer rest next b last) :
    Passes outer closer rest out (a ++ b) last := by
  obtain ⟨tokens, lexed, reads⟩ := first
  obtain ⟨tokens', lexed', reads'⟩ := second
  refine ⟨tokens ++ tokens', ?_, ?_⟩
  · rw [List.append_assoc, lexed, lexed', List.append_assoc]
  · intro glued
    obtain ⟨between, same⟩ := reads glued
    obtain ⟨later, same'⟩ := reads' between
    rw [lexed'] at same
    rw [List.append_assoc]
    exact ⟨later, same.trans same'⟩

theorem token {t : Text} {kind : InlineToken.Kind} {next : Output}
    (lexed : lex (t ++ rest) = ⟨kind, t⟩ :: lex rest)
    (here : ∀ glued tokens, step outer closer out ⟨kind, t, glued⟩ tokens = .proceed next 0) :
    Passes outer closer rest out t next := by
  refine ⟨[⟨kind, t⟩], lexed, ?_⟩
  intro glued
  exact ⟨!kind.isSpace, readLevel_alone (here _ _)⟩

end Passes

/-! ## Text -/

theorem passes_run {run : Text} (inside : ∀ c ∈ run, isTextChar c = true ∧ c ∉ Text.escaped)
    (after : ∀ c ∈ rest.head?, isTextChar c = false) :
    Passes outer closer rest out run (out.write run) := by
  cases run with
  | nil =>
    have same : out.write [] = out := by simp [Output.write]
    rw [same]
    exact .nil
  | cons c run =>
    have colon : ':' ∉ c :: run := fun mem => (inside ':' mem).2 (by decide)
    have ampersand : '&' ∉ c :: run := fun mem => (inside '&' mem).2 (by decide)
    obtain ⟨first, others⟩ := List.forall_mem_cons.1 inside
    apply Passes.token
    · exact InlineToken.lex_run first.1 (fun d mem => (others d mem).1) after
    · intro glued tokens
      exact congrArg (Step.proceed · 0) (addText_plain out colon ampersand)

theorem isTextChar_of_plain {t : Text} (plain : PlainText t) {c : Char} (mem : c ∈ t)
    (space : c ≠ ' ') (escaped : c ∉ Text.escaped) : isTextChar c = true := by
  have marks := plain.marks c mem
  have spaces := plain.isSpace_eq mem space
  simp only [Text.mem_escaped, InlineToken.isEscapable] at escaped
  simp_all [isTextChar]

theorem PlainText.tail {c : Char} {t : Text} (h : PlainText (c :: t)) : PlainText t where
  spaces := fun d mem => h.spaces d (List.mem_cons_of_mem _ mem)
  single := h.single.tail
  marks := fun d mem => h.marks d (List.mem_cons_of_mem _ mem)

theorem PlainText.next {c : Char} {t : Text} (h : PlainText (c :: t)) (space : c = ' ') :
    t.head? ≠ some ' ' := by
  cases t with
  | nil => simp
  | cons d t =>
    have apart := (List.isChain_cons_cons.1 h.single).1 space
    simpa using apart

theorem escape_cons (c : Char) (t : Text) :
    Text.escape (c :: t) = (if c ∈ Text.escaped then ['\\', c] else [c]) ++ Text.escape t := by
  simp [Text.escape]

/-- A marked text goes on with a backslash, with a character that is written as it is, or with what
follows it. -/
theorem mem_head?_escape {t rest : Text} {c : Char} (h : c ∈ (Text.escape t ++ rest).head?) :
    c = '\\' ∨ c ∈ t.head? ∧ c ∉ Text.escaped ∨ c ∈ rest.head? := by
  cases t with
  | nil => exact .inr (.inr h)
  | cons d t =>
    rw [escape_cons] at h
    by_cases escaped : d ∈ Text.escaped
    · left
      simpa [escaped, eq_comm] using h
    · right
      left
      obtain rfl : d = c := by simpa [escaped] using h
      exact ⟨rfl, escaped⟩

/-- Where a run of text ends, no text character stands. -/
theorem text_ends {t : Text} (seam : Seam rest)
    (stops : ∀ c ∈ t.head?, c = ' ' ∨ c ∈ Text.escaped) :
    ∀ c ∈ (Text.escape t ++ rest).head?, isTextChar c = false := by
  intro c mem
  rcases mem_head?_escape mem with rfl | ⟨first, unescaped⟩ | later
  · rfl
  · rcases stops c first with rfl | escaped
    · rfl
    · exact absurd escaped unescaped
  · rcases seam c later with rfl | rfl <;> rfl

theorem blank_ends {t : Text} (plain : PlainText (' ' :: t)) (seam : Seam rest) :
    ∀ c ∈ (Text.escape t ++ rest).head?, isBlankChar c = false := by
  intro c mem
  rcases mem_head?_escape mem with rfl | ⟨first, -⟩ | later
  · rfl
  · have inside : c ∈ ' ' :: t := List.mem_cons_of_mem _ (List.mem_of_mem_head? first)
    have space : c ≠ ' ' := by
      rintro rfl
      exact plain.next rfl first
    have tab : c ≠ '\t' := by
      rintro rfl
      exact absurd (plain.spaces _ inside rfl) (by decide)
    simp [isBlankChar, space, tab]
  · rcases seam c later with rfl | rfl <;> rfl

/-- A space or an escaped character stands for itself alone. -/
theorem passes_sign {c : Char} {t : Text} (sign : c = ' ' ∨ c ∈ Text.escaped)
    (plain : PlainText (c :: t)) (admits : out.Admits (c :: t)) (seam : Seam rest) :
    Passes outer closer (Text.escape t ++ rest) out
      (if c ∈ Text.escaped then ['\\', c] else [c]) (out.write [c]) := by
  by_cases escaped : c ∈ Text.escaped
  · rw [if_pos escaped]
    apply Passes.token
    · exact InlineToken.lex_escape (Text.mem_escaped.1 escaped) _
    · intro glued tokens
      rfl
  · obtain rfl := sign.resolve_right escaped
    rw [if_neg escaped]
    apply Passes.token
    · exact InlineToken.lex_blank (blank_ends plain seam)
    · intro glued tokens
      rw [step_space rfl, Output.addSpace_admits admits]

/-- Text is passed run by run; `run` is what has been met of a run so far. -/
theorem passes_text_from {run t : Text} (inside : ∀ c ∈ run, isTextChar c = true ∧ c ∉ Text.escaped)
    (plain : PlainText t) (admits : (out.write run).Admits t) (seam : Seam rest) :
    Passes outer closer rest out (run ++ Text.escape t) (out.write (run ++ t)) := by
  induction t generalizing out run with
  | nil =>
    rw [Text.escape, List.flatMap_nil, List.append_nil]
    apply passes_run inside
    intro c mem
    rcases seam c mem with rfl | rfl <;> rfl
  | cons c t ih =>
    have onward (front : Text) : (out.write (front ++ [c])).Admits t :=
      out.admits_write plain.next
    by_cases sign : c = ' ' ∨ c ∈ Text.escaped
    -- the run ends here, and a token of its own comes after it
    · have stops : ∀ d ∈ (c :: t).head?, d = ' ' ∨ d ∈ Text.escaped := by simpa using sign
      have first : Passes outer closer (Text.escape (c :: t) ++ rest) out run (out.write run) :=
        passes_run inside (text_ends seam stops)
      have here : Passes outer closer (Text.escape t ++ rest) (out.write run) _ _ :=
        passes_sign sign plain admits seam
      have others : Passes outer closer rest (out.write (run ++ [c])) ([] ++ Text.escape t)
          ((out.write (run ++ [c])).write ([] ++ t)) := by
        apply ih (by simp) plain.tail
        simpa [Output.write] using onward run
      rw [escape_cons] at first ⊢
      rw [Output.write_write] at here others
      simpa using first.append (here.append others)
    · have text : isTextChar c = true ∧ c ∉ Text.escaped := by
        have unescaped := fun h => sign (.inr h)
        exact ⟨isTextChar_of_plain plain List.mem_cons_self (fun h => sign (.inl h)) unescaped,
          unescaped⟩
      have longer : ∀ d ∈ run ++ [c], isTextChar d = true ∧ d ∉ Text.escaped := by
        intro d mem
        rcases List.mem_append.1 mem with before | last
        · exact inside d before
        · exact List.mem_singleton.1 last ▸ text
      rw [escape_cons, if_neg text.2]
      simpa using ih longer plain.tail (onward run)

theorem passes_text {t : Text} (plain : PlainText t) (admits : out.Admits t) (seam : Seam rest) :
    Passes outer closer rest out (Text.escape t) (out.write t) := by
  have same : out.write [] = out := by simp [Output.write]
  have fromHere : Passes outer closer rest out ([] ++ Text.escape t) (out.write ([] ++ t)) :=
    passes_text_from (by simp) plain (same.symm ▸ admits) seam
  exact fromHere

/-! ## Code and breaks -/

theorem codeText_eq_self {code : Text} (h : ∀ c ∈ code, c ≠ '\n') : codeText code = code := by
  rw [codeText, List.map_congr_left (g := id)]
  · exact List.map_id code
  · intro c mem
    exact if_neg (h c mem)

theorem passes_code {code : Text} (plain : ∀ c ∈ code, c ≠ '\x60' ∧ c ≠ '<' ∧ c ≠ '\n') :
    Passes outer closer rest out ('\x60' :: code ++ ['\x60']) (out.addNode (.codeSpan code)) := by
  have lexed : lex ('\x60' :: code ++ ['\x60'] ++ rest) =
      ⟨.codeMark, ['\x60']⟩ :: (lex code ++ ⟨.codeMark, ['\x60']⟩ :: lex rest) := by
    have inside := InlineToken.lex_code (fun c mem => (plain c mem).2.1) rest
    simp [InlineToken.lex_codeMark, inside]
  have split : ⟨.codeMark, ['\x60']⟩ :: (lex code ++ ⟨.codeMark, ['\x60']⟩ :: lex rest) =
      (⟨.codeMark, ['\x60']⟩ :: lex code ++ [⟨.codeMark, ['\x60']⟩]) ++ lex rest := by simp
  apply Passes.intro lexed split
  intro glued
  obtain ⟨after, parts⟩ := Lexeme.ofTokens_append true (lex code)
    (⟨.codeMark, ['\x60']⟩ :: lex rest)
  have absent : '\x60' ∉ code := fun mem => (plain _ mem).1 rfl
  have before : ∀ token ∈ Lexeme.ofTokens true (lex code), token.kind ≠ .codeMark :=
    fun token mem => InlineToken.kind_of_mem_lex absent _ (Lexeme.mem_ofTokens mem)
  have contents : codeText (Lexeme.join (Lexeme.ofTokens true (lex code))) = code := by
    rw [Lexeme.join_ofTokens, InlineToken.join_lex]
    exact codeText_eq_self fun c mem => (plain c mem).2.2
  have here : step outer closer out ⟨.codeMark, ['\x60'], glued⟩
      (Lexeme.ofTokens true (lex code ++ ⟨.codeMark, ['\x60']⟩ :: lex rest)) =
        .proceed (out.addNode (.codeSpan code)) ((Lexeme.ofTokens true (lex code)).length + 1) := by
    rw [parts, Lexeme.ofTokens, step_codeMark rfl rfl before, contents]
  have left : (Lexeme.ofTokens true (lex code ++ ⟨.codeMark, ['\x60']⟩ :: lex rest)).drop
      ((Lexeme.ofTokens true (lex code)).length + 1) = Lexeme.ofTokens true (lex rest) := by
    rw [parts, ← List.drop_drop, List.drop_left]
    rfl
  have onward := readLevel_proceed here
  rw [left] at onward
  exact ⟨true, onward⟩

theorem passes_break : Passes outer closer rest out (Tag.opens "br".toList).write
    (out.addNode .hardBreak) := by
  apply Passes.token
  · exact InlineToken.lex_tag Tag.plain_break rest
  · intro glued tokens
    rw [step_tag Tag.plain_break]
    rfl

/-! ## Contents -/

/-- A tag that opens a level of its own, its contents, and the tag that closes it. -/
theorem passes_nest {tag : Tag} {name body : Text} {span : Span} {inner : Output}
    (plain : tag.Plain) (closing : (Tag.ends name).Plain)
    (here : ∀ glued tokens, tokens.any (Lexeme.closes name) = true →
      step outer closer out ⟨.tag, tag.write, glued⟩ tokens = .nest (.tag name) span)
    (inside : Passes (closer :: outer) (.tag name) ((Tag.ends name).write ++ rest) .empty body
      inner) :
    Passes outer closer rest out (tag.write ++ body ++ (Tag.ends name).write)
      (out.addNode (span.node inner.toNodes)) := by
  obtain ⟨tokens, lexed, reads⟩ := inside
  rw [InlineToken.lex_tag closing rest] at lexed reads
  have whole : lex (tag.write ++ body ++ (Tag.ends name).write ++ rest) =
      ⟨.tag, tag.write⟩ :: (tokens ++ ⟨.tag, (Tag.ends name).write⟩ :: lex rest) := by
    rw [List.append_assoc, List.append_assoc, InlineToken.lex_tag plain, lexed]
  have split : ⟨.tag, tag.write⟩ :: (tokens ++ ⟨.tag, (Tag.ends name).write⟩ :: lex rest) =
      (⟨.tag, tag.write⟩ :: tokens ++ [⟨.tag, (Tag.ends name).write⟩]) ++ lex rest := by simp
  apply Passes.intro whole split
  intro glued
  obtain ⟨later, same⟩ := reads true
  obtain ⟨after, parts⟩ := Lexeme.ofTokens_append true tokens
    (⟨.tag, (Tag.ends name).write⟩ :: lex rest)
  have closes : (Lexeme.ofTokens true (tokens ++ ⟨.tag, (Tag.ends name).write⟩ :: lex rest)).any
      (Lexeme.closes name) = true := by
    rw [parts, List.any_append, Lexeme.ofTokens, List.any_cons, closes_ends closing]
    simp
  have closed : (readLevel (closer :: outer) (.tag name) inner (Lexeme.ofTokens later
      (⟨.tag, (Tag.ends name).write⟩ :: lex rest))).1 =
        ⟨inner.toNodes, true, Lexeme.ofTokens true (lex rest)⟩ := by
    apply readLevel_close
    rw [step_tag closing]
    exact (if_pos rfl).trans (if_pos rfl)
  exact ⟨true, readLevel_nest (here glued _ closes) (same.trans closed)⟩

theorem passes_styled {body : Text} {inner : Output} (style : Style)
    (inside : Passes (closer :: outer) (.tag style.tagName) ((Tag.ends style.tagName).write ++ rest)
      .empty body inner) :
    Passes outer closer rest out
      ((Tag.opens style.tagName).write ++ body ++ (Tag.ends style.tagName).write)
      (out.addNode (.styled style inner.toNodes)) := by
  have here (glued : Bool) (tokens : List Lexeme)
      (closed : tokens.any (Lexeme.closes style.tagName) = true) :
      step outer closer out ⟨.tag, (Tag.opens style.tagName).write, glued⟩ tokens =
        .nest (.tag style.tagName) (.styled style) := by
    rw [step_tag (Tag.plain_opens_style style)]
    exact (openingTag_style style _).trans (if_pos closed)
  exact passes_nest (Tag.plain_opens_style style) (Tag.plain_ends_style style) here inside

theorem passes_link {url body : Text} {inner : Output}
    (plain : ∀ c ∈ url, c ≠ '"' ∧ c ≠ '<' ∧ c ≠ '>')
    (inside : Passes (closer :: outer) (.tag ['a']) ((Tag.ends ['a']).write ++ rest) .empty body
      inner) :
    Passes outer closer rest out ((Tag.linkTo url).write ++ body ++ (Tag.ends ['a']).write)
      (out.addNode (.link url inner.toNodes)) := by
  have linkTo : (Tag.linkTo url).Plain := Tag.plain_linkTo fun c mem => (plain c mem).2
  have quote : '"' ∉ url := fun mem => (plain _ mem).1 rfl
  have here (glued : Bool) (tokens : List Lexeme)
      (closed : tokens.any (Lexeme.closes ['a']) = true) :
      step outer closer out ⟨.tag, (Tag.linkTo url).write, glued⟩ tokens =
        .nest (.tag ['a']) (.link url) := by
    rw [step_tag linkTo]
    exact openingTag_link quote _ closed
  exact passes_nest linkTo Tag.plain_ends_link here inside

/-! ## Nodes -/

theorem seam_tag (tag : Tag) (rest : Text) : Seam (tag.write ++ rest) := by
  have first : (tag.write ++ rest).head? = some '<' := rfl
  intro c mem
  rw [first] at mem
  exact .inl (Option.some.inj mem).symm

theorem seam_code (code rest : Text) : Seam ('\x60' :: code ++ ['\x60'] ++ rest) := by
  intro c mem
  exact .inr (Option.some.inj mem).symm

/-- Between a text and what follows it there is a seam. -/
theorem seam_nodes {nodes : List Node} (written : Writable .afterText nodes) (seam : Seam rest) :
    Seam (Spelling.marked.nodes nodes ++ rest) := by
  cases written with
  | nil => exact seam
  | text apart => exact absurd rfl apart
  | styled | link | hardBreak =>
    simp only [Spelling.nodes, Spelling.node, Spelling.marked, List.append_assoc]
    exact seam_tag _ _
  | codeSpan =>
    simp only [Spelling.nodes, Spelling.node, List.append_assoc]
    exact seam_code _ _

theorem toNodes_body {body : List Node} (written : Writable .start body) :
    (Output.empty.splice body).toNodes = body :=
  Output.toNodes_splice written rfl

theorem passes_nodes {place : Place} {nodes : List Node} (written : Writable place nodes)
    (stands : out.StandsAt place) (seam : Seam rest) :
    Passes outer closer rest out (Spelling.marked.nodes nodes) (out.splice nodes) := by
  induction written generalizing outer closer rest out with
  | nil => exact .nil
  | text apart nonempty plain front later ih =>
    have admits := Output.admits_at stands apart front
    exact (passes_text plain admits (seam_nodes later seam)).append (ih trivial seam)
  | @styled place body nodes style inside later ihInside ihLater =>
    have here : Passes outer closer (Spelling.marked.nodes nodes ++ rest) out _ _ :=
      passes_styled style (ihInside rfl (seam_tag _ _))
    rw [toNodes_body inside] at here
    exact here.append (ihLater (Output.standsAt_addNode _ _) seam)
  | @link place url body nodes plain inside later ihInside ihLater =>
    have here : Passes outer closer (Spelling.marked.nodes nodes ++ rest) out _ _ :=
      passes_link plain (ihInside rfl (seam_tag _ _))
    rw [toNodes_body inside] at here
    exact here.append (ihLater (Output.standsAt_addNode _ _) seam)
  | codeSpan plain later ih =>
    exact (passes_code plain).append (ih (Output.standsAt_addNode _ _) seam)
  | hardBreak later ih =>
    exact passes_break.append (ih (Output.standsAt_addNode _ _) seam)

end

/-! ## Whole texts -/

theorem Writable.not_empty {place : Place} {nodes : List Node} (written : Writable place nodes) :
    ∀ node ∈ nodes, isEmptyText node = false := by
  induction written with
  | nil => simp
  | text apart nonempty plain front later ih =>
    intro node mem
    rcases List.mem_cons.1 mem with rfl | later
    · unfold isEmptyText
      split
      · next same =>
        cases same
        exact absurd rfl nonempty
      · rfl
    · exact ih node later
  | styled _ _ _ _ ih | link _ _ _ _ ih | codeSpan _ _ ih | hardBreak _ ih =>
    intro node mem
    rcases List.mem_cons.1 mem with rfl | later
    · rfl
    · exact ih node later

theorem Writable.plain {place : Place} {nodes : List Node} (written : Writable place nodes)
    {t : Text} (mem : .text t ∈ nodes) : PlainText t := by
  induction written with
  | nil => cases mem
  | text apart nonempty plain front later ih =>
    rcases List.mem_cons.1 mem with same | later
    · cases same
      exact plain
    · exact ih later
  | styled _ _ _ _ ih | link _ _ _ _ ih | codeSpan _ _ ih | hardBreak _ ih =>
    rcases List.mem_cons.1 mem with same | later
    · cases same
    · exact ih later

theorem trimEnds_written {nodes : List Node} (written : Writable .start nodes)
    (ending : ∀ t, nodes.getLast? = some (.text t) → t.getLast? ≠ some ' ') :
    trimEnds nodes = nodes := by
  have first : trimFirst nodes = nodes := by
    apply trimFirst_eq_self
    intro t head c mem
    apply (written.plain (List.mem_of_mem_head? head)).isSpace_eq (List.mem_of_mem_head? mem)
    rintro rfl
    cases written with
    | text _ _ _ front =>
      cases head
      exact front rfl mem
    | _ => cases head
  have last : trimLast nodes = nodes := by
    apply trimLast_eq_self
    intro t last c mem
    apply (written.plain (List.mem_of_mem_getLast? last)).isSpace_eq (List.mem_of_mem_getLast? mem)
    rintro rfl
    exact ending t last mem
  rw [trimEnds, first, last, List.filter_eq_self]
  intro node mem
  rw [written.not_empty node mem]
  rfl

theorem parse_of_passes {t : Text} {next : Output} (h : Passes [] .finish [] .empty t next) :
    parse t = trimEnds next.toNodes := by
  obtain ⟨tokens, lexed, reads⟩ := h
  obtain ⟨later, same⟩ := reads false
  rw [← lexed, List.append_nil] at same
  rw [parse, same, lex, Lexeme.ofTokens, readLevel_nil]

/-- Whatever nodes have a marked spelling are read back from it, at any depth. -/
theorem parse_marked {nodes : List Node} (written : Writable .start nodes)
    (ending : ∀ t, nodes.getLast? = some (.text t) → t.getLast? ≠ some ' ') :
    parse (Spelling.marked.nodes nodes) = nodes := by
  have passes : Passes [] .finish [] .empty (Spelling.marked.nodes nodes)
      (Output.empty.splice nodes) := passes_nodes written rfl (by simp [Seam])
  rw [parse_of_passes passes, toNodes_body written, trimEnds_written written ending]

/-- Bold in bold, code that looks like an escape, an empty span and a link after a break. -/
def nestedSpans : List Node :=
  [.text ['a', ' '],
    .styled .strong [.styled .strong [.text ['b', '.']], .codeSpan ['\\', '@'], .styled .small []],
    .hardBreak, .link ['u', '*'] [.text ['c']]]

theorem nestedSpans_read_back : parse (Spelling.marked.nodes nestedSpans) = nestedSpans := by
  have letter : PlainText ['a', ' '] := ⟨by simp [Text.isSpace], by simp, by simp⟩
  have sentence : PlainText ['b', '.'] := ⟨by simp [Text.isSpace], by simp, by simp⟩
  have name : PlainText ['c'] := ⟨by simp [Text.isSpace], by simp, by simp⟩
  apply parse_marked
  · apply Writable.text (by simp) (by simp) letter (by simp)
    apply Writable.styled
    · apply Writable.styled
      · exact .text (by simp) (by simp) sentence (by simp) (.nil _)
      · exact .codeSpan (by simp) (.styled .small (.nil _) (.nil _))
    · apply Writable.hardBreak
      apply Writable.link (by simp) _ (.nil _)
      exact .text (by simp) (by simp) name (by simp) (.nil _)
  · simp [nestedSpans]

end DocComment.Inline
