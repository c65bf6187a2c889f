import DocComment.Proofs.Inline.Address
import DocComment.Proofs.Inline.Loose

/-!
# Crossing spans lose nothing

What a level has written and what it has still to read spell the same text before and after every
step, up to the length of runs of white space. A level that never meets its closer is written back
behind its opener, so that the same holds of whole levels, however the spans of a loose text cross.
-/

set_option autoImplicit false

namespace DocComment.Inline

open InlineToken (lex)

/-! ## What a level has written -/

namespace Output

/-- What is written so far, as it would be typed. -/
def source (out : Output) : Text := Spelling.typed.nodes out.nodes ++ out.text

theorem nodes_toNodes (out : Output) : Spelling.typed.nodes out.toNodes = out.source := by
  rw [toNodes, source]
  by_cases empty : out.text = []
  · simp [empty]
  · rw [if_neg (by simpa using empty), Spelling.nodes_append]
    simp [Spelling.nodes, Spelling.node, Spelling.typed]

theorem source_write (out : Output) (t : Text) : (out.write t).source = out.source ++ t := by
  simp [source, write]

theorem source_addNode (out : Output) (node : Node) :
    (out.addNode node).source = out.source ++ Spelling.typed.node node := by
  rw [source, addNode, Spelling.nodes_append, nodes_toNodes]
  simp [Spelling.nodes]

theorem source_splice (out : Output) (nodes : List Node) :
    (out.splice nodes).source = out.source ++ Spelling.typed.nodes nodes := by
  fun_induction splice out nodes with
  | case1 => simp [Spelling.nodes]
  | case2 out t rest ih =>
    rw [ih, source_write, Spelling.nodes, List.append_assoc]
    rfl
  | case3 out node rest _ ih => rw [ih, source_addNode, Spelling.nodes, List.append_assoc]

theorem splice_append (out : Output) (a b : List Node) :
    out.splice (a ++ b) = (out.splice a).splice b := by
  fun_induction splice out a with
  | case1 => rfl
  | case2 out t rest ih => exact ih
  | case3 out node rest _ ih => simpa [splice] using ih

/-- Only single spaces, none of them in front and none directly behind a span. -/
structure Tidy (out : Output) : Prop where
  single : Text.squeeze out.source = out.source
  front : ∀ c ∈ out.source.head?, Text.isSpace c = false
  seam : out.text = [] → ∀ c ∈ out.source.getLast?, Text.isSpace c = false

theorem tidy_empty : Output.empty.Tidy := by
  have nothing : Output.empty.source = [] := rfl
  constructor <;> simp [nothing, Text.squeeze]

variable {out next : Output}

theorem Tidy.extend (tidy : out.Tidy) {t : Text} (tight : t.Tight) (single : Text.squeeze t = t)
    (same : next.source = out.source ++ t) : next.Tidy := by
  have squeezed : Text.squeeze next.source = next.source := by
    rw [same, tight.squeeze_append, tidy.single, single]
  refine ⟨squeezed, ?_, ?_⟩
  · rw [same]
    exact tight.head?_append tidy.front
  · rw [same]
    exact fun _ => tight.getLast?_append _

/-- Unless its text ends with a space, no white space ends what a level has written. -/
theorem Tidy.last (tidy : out.Tidy) (h : out.text.getLast? ≠ some ' ') :
    ∀ c ∈ out.source.getLast?, Text.isSpace c = false := by
  by_cases empty : out.text = []
  · exact tidy.seam empty
  · intro c mem
    by_contra space
    rw [Bool.not_eq_false] at space
    have inside : c ∈ Text.squeeze out.source := tidy.single.symm ▸ List.mem_of_getLast? mem
    obtain rfl := Text.eq_space_of_mem_squeeze inside space
    rw [source, List.getLast?_append_of_ne_nil _ empty] at mem
    exact h mem

theorem addSpace_of_source {out : Output} (present : out.source ≠ []) :
    out.addSpace = if out.text.getLast? = some ' ' then out else out.write [' '] := by
  have something : ¬(out.text.isEmpty && out.nodes.isEmpty) = true := by
    rw [Bool.and_eq_true, List.isEmpty_iff, List.isEmpty_iff]
    rintro ⟨text, nodes⟩
    apply present
    rw [source, text, nodes]
    rfl
  rw [addSpace, if_neg something]

theorem Tidy.addSpace (tidy : out.Tidy) (present : out.source ≠ []) :
    out.addSpace.Tidy ∧ out.addSpace.source = Text.squeeze (out.source ++ [' ']) := by
  rw [addSpace_of_source present]
  by_cases space : out.text.getLast? = some ' '
  · rw [if_pos space]
    obtain ⟨front, same⟩ := List.getLast?_eq_some_iff.1 space
    have ends : out.source = Spelling.typed.nodes out.nodes ++ front ++ [' '] := by
      rw [source, same, List.append_assoc]
    have pair : Text.squeeze ([' '] ++ [' ']) = [' '] := rfl
    have squeezed : Text.squeeze (out.source ++ [' ']) = out.source := by
      rw [ends, List.append_assoc, ← Text.squeeze_append_squeeze, pair, ← ends, tidy.single]
    exact ⟨tidy, squeezed.symm⟩
  · rw [if_neg space]
    have longer : (out.write [' ']).source = out.source ++ [' '] := source_write out [' ']
    have squeezed : Text.squeeze (out.source ++ [' ']) = out.source ++ [' '] := by
      rw [Text.squeeze_append (tidy.last space), tidy.single]
      rfl
    refine ⟨⟨?_, ?_, ?_⟩, ?_⟩
    · rw [longer, squeezed]
    · intro c mem
      rw [longer, List.head?_append_of_ne_nil _ present] at mem
      exact tidy.front c mem
    · simp [write]
    · rw [longer, squeezed]

/-- A level that was not closed is written back behind its opener. -/
theorem Tidy.splice (tidy : out.Tidy) (present : out.source ≠ [])
    (last : ∀ c ∈ out.source.getLast?, Text.isSpace c = false) {ending : Output}
    (inside : ending.Tidy) : (out.splice ending.toNodes).Tidy := by
  have same : (out.splice ending.toNodes).source = out.source ++ ending.source := by
    rw [source_splice, nodes_toNodes]
  refine ⟨?_, ?_, ?_⟩
  · rw [same, Text.squeeze_append last, tidy.single, inside.single]
  · rw [same, List.head?_append_of_ne_nil _ present]
    exact tidy.front
  · intro noText
    by_cases text : ending.text = []
    · rw [same]
      by_cases empty : ending.source = []
      · rwa [empty, List.append_nil]
      · rw [List.getLast?_append_of_ne_nil _ empty]
        exact inside.seam text
    · rw [toNodes, if_neg (by simpa using text), splice_append] at noText
      simp [Output.splice, write, text] at noText

end Output

/-! ## Addresses -/

/-- An address is typed as its link and the punctuation behind it. -/
theorem source_link (out : Output) (url : Text) :
    let split := Url.splitPunctuation url
    (out.addNode (.link split.1 [.text split.1])).source ++ split.2 = out.source ++ url := by
  dsimp only
  rw [Output.source_addNode, List.append_assoc]
  exact congrArg (out.source ++ ·) (Url.splitPunctuation_append url)

theorem source_writeMatch (state : Output × Text) {found : Url.Match}
    (h : '&' ∉ state.2 ++ found.before) :
    (writeMatch state found).1.source ++ (writeMatch state found).2 =
      state.1.source ++ state.2 ++ (found.before ++ found.url) := by
  have decoded : Text.decodeReferences (state.2 ++ found.before) = state.2 ++ found.before :=
    decodeFrom_of_not_mem h
  dsimp only [writeMatch]
  rw [decoded, source_link, Output.source_write]
  simp

theorem ampersand_writeMatch (state : Output × Text) {found : Url.Match} (h : '&' ∉ found.url) :
    '&' ∉ (writeMatch state found).2 := by
  intro mem
  apply h
  rw [← Url.splitPunctuation_append found.url]
  exact List.mem_append_right _ mem

theorem source_writeMatches (state : Output × Text) (found : List Url.Match) (rest : Text)
    (h : '&' ∉ state.2 ++ Url.Matches.text ⟨found, rest⟩) :
    (found.foldl writeMatch state).1.source ++
        Text.decodeReferences ((found.foldl writeMatch state).2 ++ rest) =
      state.1.source ++ state.2 ++ Url.Matches.text ⟨found, rest⟩ := by
  simp only [Url.Matches.text] at h ⊢
  induction found generalizing state with
  | nil =>
    have decoded : Text.decodeReferences (state.2 ++ rest) = state.2 ++ rest :=
      decodeFrom_of_not_mem h
    rw [List.foldl_nil, decoded, List.flatMap_nil, List.nil_append, List.append_assoc]
  | cons first found ih =>
    simp only [List.flatMap_cons, List.mem_append, not_or] at h ih
    obtain ⟨before, ⟨⟨front, url⟩, others⟩, ending⟩ := h
    have unmarked : '&' ∉ state.2 ++ first.before := by simp [before, front]
    have here := source_writeMatch state unmarked
    have later := ih (writeMatch state first) ⟨ampersand_writeMatch state url, others, ending⟩
    rw [List.foldl_cons, later, here, List.flatMap_cons]
    simp

/-- Text without character references is written as it is, addresses and all. -/
theorem source_addText (out : Output) {t : Text} (ampersand : '&' ∉ t) :
    (addText out t).source = out.source ++ t := by
  have whole : (Url.matchesIn t).text = t := Url.text_matchesIn t
  have uncut : '&' ∉ (Url.matchesIn t).text := by rwa [whole]
  have written := source_writeMatches (out, []) (Url.matchesIn t).found (Url.matchesIn t).rest uncut
  rw [addText_eq, Output.source_write, written, List.append_nil, whole]

/-! ## One step -/

/-- How the end of a level is typed. -/
def Closer.text : Closer → Text
  | .finish => []
  | .tag name => (Tag.ends name).write
  | .delimiter kind => (delimiterStyle kind).delimiter?.getD []

/-- What a step may do to a level: what it writes is what it reads, and a level that it opens is
that of a style. -/
def Keeps (closer : Closer) (out : Output) (token : Lexeme) (rest : List Lexeme) : Step → Prop
  | .proceed next taken => taken = 0 ∧ next.Tidy ∧ next.source ≠ [] ∧
      Text.squeeze next.source = Text.squeeze (out.source ++ token.text)
  | .close => closer.text = token.text
  | .leave => True
  | .nest inner span => ∃ style, span = .styled style ∧
      Spelling.typed.opener style = token.text ∧ Spelling.typed.closer style = inner.text ∧
      ∀ first ∈ rest.head?, first.kind.isSpace = false

section

variable {outer : List Closer} {closer : Closer} {out : Output} {rest : List Lexeme}

theorem keeps_solid {next : Output} (tidy : out.Tidy) {token : Lexeme} (solid : token.text.Solid)
    (nonempty : token.text ≠ []) (same : next.source = out.source ++ token.text) :
    Keeps closer out token rest (.proceed next 0) := by
  refine ⟨rfl, tidy.extend (solid.tight nonempty) solid.squeeze same, ?_, ?_⟩
  · simp [same, nonempty]
  · rw [same]

theorem keeps_write (tidy : out.Tidy) {token : Lexeme} (solid : token.text.Solid)
    (nonempty : token.text ≠ []) :
    Keeps closer out token rest (.proceed (out.write token.text) 0) :=
  keeps_solid tidy solid nonempty (Output.source_write out token.text)

theorem keeps_space (tidy : out.Tidy) (present : out.source ≠ []) {token : Lexeme}
    (nonempty : token.text ≠ []) (blank : ∀ c ∈ token.text, Text.isSpace c = true) :
    Keeps closer out token rest (.proceed out.addSpace 0) := by
  obtain ⟨tidier, same⟩ := tidy.addSpace present
  have squeezed := Text.squeeze_blank nonempty blank
  refine ⟨rfl, tidier, ?_, ?_⟩
  · rw [Output.addSpace_of_source present]
    split_ifs
    · exact present
    · simp [Output.source_write]
  · rw [same, Text.squeeze_squeeze, ← Text.squeeze_append_squeeze out.source token.text, squeezed]

theorem opensSpan_first {kind : InlineToken.Kind} (h : opensSpan kind rest = true) :
    ∀ first ∈ rest.head?, first.kind.isSpace = false := by
  intro first mem
  cases rest with
  | nil => cases mem
  | cons token rest =>
    cases mem
    simp only [opensSpan, Bool.and_eq_true, Bool.not_eq_true'] at h
    exact h.1

theorem keeps_delimiter {kind : InlineToken.Kind} {t : Text}
    (kinds : kind = .doubleStar ∨ kind = .star ∨ kind = .doubleTilde)
    (typed : (delimiterStyle kind).delimiter? = some t) (glued : Bool)
    (write : Keeps closer out ⟨kind, t, glued⟩ rest (.proceed (out.write t) 0)) :
    Keeps closer out ⟨kind, t, glued⟩ rest (step outer closer out ⟨kind, t, glued⟩ rest) := by
  obtain ⟨opener, ends⟩ := opener_of_delimiter typed
  have spelled : Closer.text (.delimiter kind) = t := by simp [Closer.text, typed]
  have stepped : step outer closer out ⟨kind, t, glued⟩ rest =
      if closer = .delimiter kind ∧ glued = true then .close
      else if opensSpan kind rest = true then
        .nest (.delimiter kind) (.styled (delimiterStyle kind))
      else .proceed (out.write t) 0 := by rcases kinds with rfl | rfl | rfl <;> rfl
  rw [stepped]
  split_ifs with closes opens
  · rw [closes.1]
    exact spelled
  · exact ⟨delimiterStyle kind, rfl, opener, ends.trans spelled.symm, opensSpan_first opens⟩
  · exact write

theorem keeps_opening {style : Style} (tagged : style.delimiter? = none)
    (loose : LooseTokens true rest) (glued : Bool)
    (write : Keeps closer out ⟨.tag, (Tag.opens style.tagName).write, glued⟩ rest
      (.proceed (out.write (Tag.opens style.tagName).write) 0)) :
    Keeps closer out ⟨.tag, (Tag.opens style.tagName).write, glued⟩ rest
      (step outer closer out ⟨.tag, (Tag.opens style.tagName).write, glued⟩ rest) := by
  obtain ⟨opener, ends⟩ := opener_of_tag tagged
  rw [step_tag (Tag.plain_opens_style style)]
  show Keeps _ _ _ _ (openingTag _ _ _ _)
  rw [openingTag_style]
  split_ifs
  · exact ⟨style, rfl, opener, ends, loose.first⟩
  · exact write

theorem keeps_closing {style : Style} (glued : Bool)
    (write : Keeps closer out ⟨.tag, (Tag.ends style.tagName).write, glued⟩ rest
      (.proceed (out.write (Tag.ends style.tagName).write) 0)) :
    Keeps closer out ⟨.tag, (Tag.ends style.tagName).write, glued⟩ rest
      (step outer closer out ⟨.tag, (Tag.ends style.tagName).write, glued⟩ rest) := by
  rw [step_tag (Tag.plain_ends_style style)]
  show Keeps _ _ _ _ (closingTag _ _ _ _ style.tagName)
  unfold closingTag
  split_ifs with here further
  · rw [here]
    rfl
  · trivial
  · exact write

/-- Every step in loose text keeps what has been written and what is still to be read. -/
theorem step_keeps {behind opens : Bool} {token : Lexeme}
    (here : LooseToken behind ⟨token.kind, token.text⟩ opens) (later : LooseTokens opens rest)
    (tidy : out.Tidy) (present : token.kind.isSpace = true → out.source ≠ []) :
    Keeps closer out token rest (step outer closer out token rest) := by
  have write (h : token.kind.isSpace = false) :
      Keeps closer out token rest (.proceed (out.write token.text) 0) := by
    rcases here.blank_or_solid with ⟨space, -⟩ | ⟨-, solid⟩
    · rw [space] at h
      cases h
    · exact keeps_write tidy solid here.nonempty
  obtain ⟨kind, t, glued⟩ := token
  cases here with
  | space space nonempty blank =>
    rw [step_space space]
    exact keeps_space tidy (present space) nonempty blank
  | word kinds nonempty solid ampersand =>
    rcases kinds with rfl | rfl
    · exact keeps_solid tidy solid nonempty (source_addText out ampersand)
    · exact write rfl
  | delimiter kinds typed =>
    apply keeps_delimiter kinds typed glued (write _)
    rcases kinds with rfl | rfl | rfl <;> rfl
  | opening tagged => exact keeps_opening tagged later glued (write rfl)
  | closing tagged => exact keeps_closing glued (write rfl)

theorem LooseTokens.keeps {behind : Bool} {token : Lexeme}
    (loose : LooseTokens behind (token :: rest)) (tidy : out.Tidy)
    (present : ∀ first ∈ (token :: rest).head?, first.kind.isSpace = true → out.source ≠ [])
    (outer : List Closer) (closer : Closer) : ∃ opens, LooseTokens opens rest ∧
      Keeps closer out token rest (step outer closer out token rest) := by
  cases loose with
  | cons here later => exact ⟨_, later, step_keeps here later tidy (present token rfl)⟩

/-! ## A whole level -/

/-- A level that has ended gives back what was read, as `ending` has written it. -/
structure GivesBack (closer : Closer) (read : Text) (level : EndedLevel) (ending : Output) :
    Prop where
  nodes : level.nodes = ending.toNodes
  tidy : ending.Tidy
  loose : ∃ behind, LooseTokens behind level.rest
  text : Text.squeeze (ending.source ++ ((if level.closed then closer.text else []) ++
    Lexeme.join level.rest)) = Text.squeeze read

theorem source_addSpan {style : Style} {level : EndedLevel} {ending : Output} {inner : Closer}
    {opener : Text} (nodes : level.nodes = ending.toNodes)
    (opens : Spelling.typed.opener style = opener)
    (closes : Spelling.typed.closer style = inner.text) :
    (out.addSpan opener (.styled style) level).source =
      out.source ++ (opener ++ (ending.source ++ (if level.closed then inner.text else []))) := by
  rw [Output.addSpan]
  cases level.closed with
  | true =>
    rw [if_pos rfl, if_pos rfl, Output.source_addNode, ← opens, ← closes, nodes, Span.node,
      Spelling.node, Output.nodes_toNodes, List.append_assoc]
  | false =>
    rw [if_neg (by simp), if_neg (by simp), Output.source_splice, Output.source_write, nodes,
      Output.nodes_toNodes, List.append_nil, List.append_assoc]

theorem tidy_addSpan (tidy : out.Tidy) {style : Style} {level : EndedLevel} {ending : Output}
    (nodes : level.nodes = ending.toNodes) (inside : ending.Tidy) :
    (out.addSpan (Spelling.typed.opener style) (.styled style) level).Tidy := by
  obtain ⟨solid, nonempty⟩ := solid_opener style
  obtain ⟨solid', nonempty'⟩ := solid_closer style
  have opener := solid.tight nonempty
  have closer := solid'.tight nonempty'
  rw [Output.addSpan]
  cases level.closed with
  | true =>
    apply tidy.extend (opener.between closer ending.source)
    · rw [solid.squeeze_append, closer.squeeze_append, inside.single, solid'.squeeze]
    · rw [if_pos rfl, Output.source_addNode, nodes, Span.node, Spelling.node,
        Output.nodes_toNodes, List.append_assoc]
  | false =>
    have written := Output.source_write out (Spelling.typed.opener style)
    have opened := tidy.extend opener solid.squeeze written
    rw [if_neg (by simp), nodes]
    apply opened.splice _ _ inside
    · simp [written, nonempty]
    · rw [written]
      exact opener.getLast?_append _

/-- What a level gives back is what it had written before and what it has read. -/
theorem Reads.givesBack {tokens : List Lexeme} {level : EndedLevel}
    (reads : Reads outer closer out tokens level) {behind : Bool}
    (loose : LooseTokens behind tokens) (tidy : out.Tidy)
    (present : ∀ first ∈ tokens.head?, first.kind.isSpace = true → out.source ≠ []) :
    ∃ ending, GivesBack closer (out.source ++ Lexeme.join tokens) level ending := by
  induction reads generalizing behind with
  | finish outer closer out => exact ⟨out, rfl, tidy, ⟨behind, loose⟩, rfl⟩
  | @close outer closer out token rest here =>
    obtain ⟨_, others, keeps⟩ := loose.keeps tidy present outer closer
    rw [here] at keeps
    refine ⟨out, rfl, tidy, ⟨_, others⟩, ?_⟩
    rw [if_pos rfl, keeps, Lexeme.join_cons]
  | leave here => exact ⟨_, rfl, tidy, ⟨behind, loose⟩, rfl⟩
  | @proceed outer closer out next token rest taken level here later ih =>
    obtain ⟨_, others, keeps⟩ := loose.keeps tidy present outer closer
    rw [here] at keeps
    obtain ⟨rfl, tidier, nonempty, same⟩ := keeps
    obtain ⟨ending, back⟩ := ih others tidier fun _ _ _ => nonempty
    refine ⟨ending, { back with text := back.text.trans ?_ }⟩
    rw [List.drop_zero, ← Text.squeeze_squeeze_append, same, Text.squeeze_squeeze_append,
      Lexeme.join_cons, List.append_assoc]
  | @nest outer closer out token rest inner span body level here inside later ihInside ihLater =>
    obtain ⟨_, others, keeps⟩ := loose.keeps tidy present outer closer
    rw [here] at keeps
    obtain ⟨style, rfl, opens, closes, solid⟩ := keeps
    obtain ⟨contents, read⟩ := ihInside others Output.tidy_empty fun token mem space =>
      absurd space (by simp [solid token mem])
    obtain ⟨_, beyond⟩ := read.loose
    have written : (out.addSpan token.text (.styled style) body).source = _ :=
      source_addSpan read.nodes opens closes
    have tidier : (out.addSpan token.text (.styled style) body).Tidy :=
      opens ▸ tidy_addSpan tidy read.nodes read.tidy
    have nonempty : token.text ≠ [] := opens ▸ (solid_opener style).2
    obtain ⟨ending, back⟩ := ihLater beyond tidier fun _ _ _ => by simp [written, nonempty]
    refine ⟨ending, { back with text := back.text.trans ?_ }⟩
    -- the contents spell what the inner level has read, so its opener goes before both
    calc Text.squeeze ((out.addSpan token.text (.styled style) body).source ++
        Lexeme.join body.rest)
      _ = Text.squeeze (out.source ++ token.text ++ (contents.source ++
            ((if body.closed then inner.text else []) ++ Lexeme.join body.rest))) := by
        rw [written]
        simp only [List.append_assoc]
      _ = Text.squeeze (out.source ++ token.text ++ Lexeme.join rest) := by
        rw [← Text.squeeze_append_squeeze, read.text, Text.squeeze_append_squeeze]
        rfl
      _ = Text.squeeze (out.source ++ Lexeme.join (token :: rest)) := by
        rw [Lexeme.join_cons, List.append_assoc]

end

/-! ## Whole texts -/

theorem LooseTokens.spaces {behind : Bool} {tokens : List Lexeme}
    (loose : LooseTokens behind tokens) :
    LooseTokens behind (tokens.dropWhile fun token => token.kind.isSpace) ∧
      Lexeme.join (tokens.dropWhile fun token => token.kind.isSpace) =
        Text.trimStart (Lexeme.join tokens) := by
  induction loose with
  | nil behind => exact ⟨.nil behind, rfl⟩
  | @cons behind opens token rest here later ih =>
    rw [List.dropWhile_cons, Lexeme.join_cons]
    rcases here.blank_or_solid with ⟨space, rfl, rfl, blank⟩ | ⟨space, solid⟩
    · rw [if_pos space, Text.trimStart, List.dropWhile_append_of_pos blank]
      exact ih
    · have kept : Text.trimStart (token.text ++ Lexeme.join rest) =
          token.text ++ Lexeme.join rest := by
        apply Text.trimStart_eq_self
        intro c mem
        rw [List.head?_append_of_ne_nil _ here.nonempty] at mem
        exact solid c (List.mem_of_mem_head? mem)
      rw [if_neg (by simp [space]), kept]
      exact ⟨.cons here later, rfl⟩

theorem first_dropWhile (tokens : List Lexeme) :
    ∀ first ∈ (tokens.dropWhile fun token => token.kind.isSpace).head?,
      first.kind.isSpace = false := by
  intro first mem
  have stops := List.head?_dropWhile_not (fun token : Lexeme => token.kind.isSpace) tokens
  rw [mem] at stops
  exact stops

theorem typed_filter (nodes : List Node) :
    Spelling.typed.nodes (nodes.filter fun node => !isEmptyText node) =
      Spelling.typed.nodes nodes := by
  induction nodes with
  | nil => rfl
  | cons node rest ih =>
    rw [List.filter_cons]
    split_ifs with kept
    · rw [Spelling.nodes, Spelling.nodes, ih]
    · have empty : Spelling.typed.node node = [] := by
        unfold isEmptyText at kept
        split at kept
        · rfl
        · cases kept rfl
      rw [Spelling.nodes, ih, empty, List.nil_append]

theorem typed_trimEnds {ending : Output} (tidy : ending.Tidy) :
    Spelling.typed.nodes (trimEnds ending.toNodes) = Text.trimEnd ending.source := by
  have first : trimFirst ending.toNodes = ending.toNodes := by
    apply trimFirst_eq_self
    intro t head c mem
    obtain ⟨others, nodes⟩ := List.head?_eq_some_iff.1 head
    have starts : ending.source = t ++ Spelling.typed.nodes others := by
      rw [← Output.nodes_toNodes, nodes]
      rfl
    apply tidy.front c
    rw [starts, List.head?_append, mem]
    rfl
  rw [trimEnds, typed_filter, first]
  by_cases text : ending.text = []
  · have last : trimLast ending.toNodes = ending.toNodes := by
      apply trimLast_eq_self
      intro t last c mem
      obtain ⟨others, nodes⟩ := List.getLast?_eq_some_iff.1 last
      have ends : ending.source = Spelling.typed.nodes others ++ t := by
        rw [← Output.nodes_toNodes, nodes, Spelling.nodes_append]
        simp [Spelling.nodes, Spelling.node, Spelling.typed]
      apply tidy.seam text c
      rw [ends, List.getLast?_append, mem]
      rfl
    rw [last, Output.nodes_toNodes, Text.trimEnd_eq_self (tidy.seam text)]
  · have nodes : ending.toNodes = ending.nodes ++ [.text ending.text] := by
      simp [Output.toNodes, text]
    have trimmed : Spelling.typed.nodes [mapText Text.trimEnd (.text ending.text)] =
        Text.trimEnd ending.text := by
      simp [mapText, Spelling.nodes, Spelling.node, Spelling.typed]
    rw [nodes, trimLast_concat, Spelling.nodes_append, trimmed, Output.source, Text.trimEnd_append]
    intro blank
    exact Text.not_space_of_squeezed tidy.single text (Text.isSpace_of_trimEnd blank)

/-- Whatever crosses in a loose text, nothing of it is lost but superfluous white space, and nothing
is added. -/
theorem parse_loose {t : Text} (loose : LooseText false t) :
    Spelling.typed.nodes (parse t) = Text.trim (Text.squeeze t) := by
  have tokens : LooseTokens false (Lexeme.ofTokens false (lex t)) := loose.tokens
  obtain ⟨others, left⟩ := tokens.spaces
  have reads := reads_readLevel [] .finish .empty
    ((Lexeme.ofTokens false (lex t)).dropWhile fun token => token.kind.isSpace)
  obtain ⟨ending, back⟩ := reads.givesBack others Output.tidy_empty fun first mem space =>
    absurd space (by simp [first_dropWhile _ first mem])
  obtain ⟨unclosed, nothing⟩ := reads.rest_eq_nil
  have source : ending.source = Text.trimStart (Text.squeeze t) := by
    have same := back.text
    have nothingLeft (t : Text) :
        t ++ ((if false then Closer.finish.text else []) ++ Lexeme.join []) = t := by
      simp [Lexeme.join]
    rw [unclosed, nothing, left, Lexeme.join_ofTokens, InlineToken.join_lex, nothingLeft,
      back.tidy.single] at same
    rw [same, ← Text.squeeze_trimStart]
    rfl
  rw [parse, readLevel_spaces, back.nodes, typed_trimEnds back.tidy, source, Text.trim]

/-- The emphasis crosses the underlining, so that its delimiters are read as text. -/
theorem crossedSpans_kept : Spelling.typed.nodes (parse "<u>*a</u>* \n.".toList) =
    "<u>*a</u>* .".toList := by
  have star : Style.emphasis.delimiter? = some ['*'] := rfl
  have tagged : Style.underline.delimiter? = none := rfl
  have stop : LooseText false ['.'] := .character rfl (by decide) (.nil _)
  have blanks : LooseText false [' ', '\n', '.'] :=
    .blank (.inl rfl) (.blank (.inr (.inr rfl)) stop)
  have ended : LooseText false (['a'] ++ ((Tag.ends ['u']).write ++ (['*'] ++ [' ', '\n', '.']))) :=
    .character rfl (by decide) (.closing tagged (.delimiter star blanks))
  have loose : LooseText false "<u>*a</u>* \n.".toList := .opening tagged (.delimiter star ended)
  exact (parse_loose loose).trans (by decide)

end DocComment.Inline
