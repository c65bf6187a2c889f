import DocComment.Inline.Tag
import DocComment.Inline.Token
import DocComment.Inline.Url
import DocComment.Text.CharacterReference

/-!
# Inline markup

Spans nest, and each level of nesting ends with its own closer, with the end of the text,
or before a tag that closes a level further out. A level that does not reach its closer is
written back as it was: its opener as text, then its contents. Runs of white space become
one space.
-/

set_option autoImplicit false

namespace DocComment.Inline

/-! ## What is written on one level -/

/-- The nodes of a level and the text after the last of them. -/
structure Output where
  nodes : List Node
  text : Text

namespace Output

def empty : Output := ⟨[], []⟩

def write (out : Output) (t : Text) : Output := { out with text := out.text ++ t }

/-- One space; none at the start of a level and none after another. -/
def addSpace (out : Output) : Output :=
  if out.text.isEmpty && out.nodes.isEmpty then out
  else if out.text.getLast? = some ' ' then out
  else out.write [' ']

def toNodes (out : Output) : List Node :=
  if out.text.isEmpty then out.nodes else out.nodes ++ [.text out.text]

def addNode (out : Output) (node : Node) : Output := ⟨out.toNodes ++ [node], []⟩

/-- Writes nodes of a level that was not closed. -/
def splice : Output → List Node → Output
  | out, [] => out
  | out, .text t :: rest => (out.write t).splice rest
  | out, other :: rest => (out.addNode other).splice rest

end Output

/-! ## Tokens in their surroundings -/

/-- A token that knows whether it follows a word. -/
structure Lexeme where
  kind : InlineToken.Kind
  text : Text
  /-- Whether there is a token before it that is no space. -/
  glued : Bool
  deriving DecidableEq

namespace Lexeme

def ofTokens : Bool → List InlineToken → List Lexeme
  | _, [] => []
  | glued, token :: rest => ⟨token.kind, token.text, glued⟩ :: ofTokens (!token.kind.isSpace) rest

def join (tokens : List Lexeme) : Text := tokens.flatMap Lexeme.text

/-- Whether the token is a tag that closes `name`. -/
def closes (name : Text) (token : Lexeme) : Bool :=
  token.kind == .tag && (Tag.read? token.text).any (·.closes name)

end Lexeme

/-- What ends a level. -/
inductive Closer where
  | finish
  /-- The closing tag of this name. -/
  | tag (name : Text)
  /-- A delimiter of this kind. -/
  | delimiter (kind : InlineToken.Kind)
  deriving DecidableEq

/-- What becomes of the contents of a level that is closed. -/
inductive Span where
  | styled (style : Style)
  | link (url : Text)
  deriving DecidableEq

def Span.node : Span → List Node → Node
  | styled style, body => .styled style body
  | link url, body => .link url body

/-- A level that has ended. -/
structure EndedLevel where
  nodes : List Node
  /-- Whether it ended with its own closer. -/
  closed : Bool
  /-- The tokens not read. -/
  rest : List Lexeme

/-- Writes a span: its contents wrapped, or its opener and its contents as they were. -/
def Output.addSpan (out : Output) (opener : Text) (span : Span) (level : EndedLevel) : Output :=
  if level.closed then out.addNode (span.node level.nodes)
  else (out.write opener).splice level.nodes

/-! ## Single tokens -/

/-- What a token does to the level that it stands on. -/
inductive Step where
  /-- The level goes on after `taken` more tokens. -/
  | proceed (out : Output) (taken : Nat)
  | close
  /-- The token closes a level further out and is left unread. -/
  | leave
  | nest (closer : Closer) (span : Span)

/-- Running text, in which addresses become links. -/
def addText (out : Output) (t : Text) : Output :=
  let urls := Url.matchesIn t
  let write := fun (state : Output × Text) (found : Url.Match) =>
    let (url, trailing) := Url.splitPunctuation found.url
    let out := state.1.write (Text.decodeReferences (state.2 ++ found.before))
    (out.addNode (.link url [.text url]), trailing)
  let (out, trailing) := urls.found.foldl write (out, [])
  out.write (Text.decodeReferences (trailing ++ urls.rest))

/-- The contents up to the first token that `p` accepts, and how many tokens they and it
take. -/
def upTo? (p : Lexeme → Bool) (tokens : List Lexeme) : Option (Text × Nat) :=
  (tokens.findIdx? p).map fun i => (Lexeme.join (tokens.take i), i + 1)

/-- Line feeds inside code are spaces. -/
def codeText (t : Text) : Text := t.map fun c => if c = '\n' then ' ' else c

def delimiterStyle : InlineToken.Kind → Style
  | .doubleStar => .strong
  | .star => .emphasis
  | _ => .strikethrough

/-- Whether a delimiter before these tokens can open a span: it stands at the front of a
word, and a delimiter of its kind stands at the end of a later one. -/
def opensSpan (kind : InlineToken.Kind) : List Lexeme → Bool
  | [] => false
  | first :: rest => !first.kind.isSpace && rest.any fun t => t.kind == kind && t.glued

/-! ## Commands -/

/-- The next word, and how many tokens it takes with the spaces before it. -/
def nextWord? (tokens : List Lexeme) : Option (Text × Nat) :=
  let spaces := (tokens.takeWhile (·.kind.isSpace)).length
  let word := (tokens.drop spaces).takeWhile (!·.kind.isSpace)
  if word.isEmpty then none else some (Lexeme.join word, spaces + word.length)

/-- A word without the sentence punctuation after it. -/
structure Argument where
  word : Text
  trailing : Text
  taken : Nat

def argument? (tokens : List Lexeme) : Option Argument := do
  let (word, taken) ← nextWord? tokens
  let (word, trailing) := Url.splitPunctuation word
  if word.isEmpty then none else some ⟨word, trailing, taken⟩

/-- The text in quotes after the target of a reference. -/
def quoted? : List Lexeme → Option (Text × Nat)
  | space :: quote :: rest =>
    if space.kind = .spaces ∧ quote.kind = .quote then
      (upTo? (·.kind == .quote) rest).map fun (t, n) =>
        ([' '].intercalate (Text.words t), 2 + n)
    else none
  | _ => none

/-- A reference, with the tokens that its display text takes after those of its target. -/
def reference (target : Argument) (tokens : List Lexeme) : Node × Nat :=
  let display? :=
    if target.trailing.isEmpty then quoted? (tokens.drop target.taken) else none
  (.crossRef target.word (display?.map Prod.fst) .pending, (display?.map Prod.snd).getD 0)

/-- The node of a command, the text after it and the tokens that it takes. -/
structure Reading where
  node : Node
  trailing : Text
  taken : Nat

def Argument.reading (argument : Argument) (node : Node) : Reading :=
  ⟨node, argument.trailing, argument.taken⟩

/-- What a command before these tokens stands for; none if it is unknown or lacks its
argument. -/
def command? (name : Text) (tokens : List Lexeme) : Option Reading :=
  if name = "n".toList then some ⟨.hardBreak, [], 0⟩
  else if name = "c".toList ∨ name = "p".toList then
    (argument? tokens).map fun a => a.reading (.codeSpan a.word)
  else if name = "b".toList then
    (argument? tokens).map fun a => a.reading (.styled .strong [.text a.word])
  else if name = "e".toList ∨ name = "em".toList ∨ name = "a".toList then
    (argument? tokens).map fun a => a.reading (.styled .emphasis [.text a.word])
  else if name = "ref".toList ∨ name = "link".toList then
    (argument? tokens).map fun a =>
      let (node, more) := reference a tokens
      ⟨node, a.trailing, a.taken + more⟩
  else if name = "copydoc".toList then
    (argument? tokens).map fun a => a.reading (.copyDoc a.word .pending none)
  else if name = "anchor".toList then
    (nextWord? tokens).map fun (word, taken) => ⟨.anchor word, [], taken⟩
  else if name = "emoji".toList then
    (nextWord? tokens).map fun (word, taken) => ⟨.emoji (Text.trimMatches ':' word), [], taken⟩
  else none

/-! ## Tags -/

/-- What a closing tag does. -/
def closingTag (outer : List Closer) (closer : Closer) (out : Output) (raw name : Text) : Step :=
  if closer = .tag name then .close
  else if outer.contains (.tag name) then .leave
  else .proceed (out.write raw) 0

/-- What an opening tag before these tokens does. -/
def openingTag (out : Output) (raw : Text) (tag : Tag) (tokens : List Lexeme) : Step :=
  let closed := tokens.any (Lexeme.closes tag.name)
  let literal := Step.proceed (out.write raw) 0
  if tag.name = "br".toList then .proceed (out.addNode .hardBreak) 0
  else if tag.name = "code".toList ∨ tag.name = "tt".toList then
    match upTo? (Lexeme.closes tag.name) tokens with
    | some (code, taken) =>
      .proceed (out.addNode (.codeSpan (Text.decodeReferences (codeText code)))) taken
    | none => literal
  else if tag.name = "a".toList then
    match (tag.valueOf? "href".toList).filter fun _ => closed with
    | some url => .nest (.tag tag.name) (.link url)
    | none =>
      match (tag.valueOf? "name".toList).or (tag.valueOf? "id".toList) with
      | some name =>
        .proceed (out.addNode (.anchor name))
          (if tokens.head?.any (Lexeme.closes tag.name) then 1 else 0)
      | none => literal
  else
    match (Style.ofTag? tag.name).filter fun _ => closed with
    | some style => .nest (.tag tag.name) (.styled style)
    | none => literal

/-! ## Levels -/

/-- What a token before these tokens does to a level that ends with `closer`, inside levels
that end with `outer`. -/
def step (outer : List Closer) (closer : Closer) (out : Output) (token : Lexeme)
    (tokens : List Lexeme) : Step :=
  match token.kind with
  | .spaces | .lineBreak => .proceed out.addSpace 0
  | .escape => .proceed (out.write (token.text.drop 1)) 0
  | .text => .proceed (addText out token.text) 0
  | .quote | .lone => .proceed (out.write token.text) 0
  | .formulaMark =>
    match upTo? (·.kind == .formulaMark) tokens with
    | some (latex, taken) => .proceed (out.addNode (.formula (Text.trim latex) false)) taken
    | none => .proceed (out.write token.text) 0
  | .codeMark =>
    match upTo? (·.kind == .codeMark) tokens with
    | some (code, taken) => .proceed (out.addNode (.codeSpan (codeText code))) taken
    | none => .proceed (out.write token.text) 0
  | .doubleStar | .star | .doubleTilde =>
    if closer = .delimiter token.kind ∧ token.glued then .close
    else if opensSpan token.kind tokens then
      .nest (.delimiter token.kind) (.styled (delimiterStyle token.kind))
    else .proceed (out.write token.text) 0
  | .tag =>
    match Tag.read? token.text with
    | none => .proceed (out.write token.text) 0
    | some tag =>
      if tag.closing then closingTag outer closer out token.text tag.name
      else openingTag out token.text tag tokens
  | .command =>
    match command? (token.text.drop 1) tokens with
    | some read => .proceed ((out.addNode read.node).write read.trailing) read.taken
    | none => .proceed (out.write token.text) 0

/-- Reads a level to its end. -/
def readLevel (outer : List Closer) (closer : Closer) (out : Output) (tokens : List Lexeme) :
    { level : EndedLevel // level.rest.length ≤ tokens.length } :=
  match tokens with
  | [] => ⟨⟨out.toNodes, false, []⟩, Nat.le_refl _⟩
  | token :: rest =>
    match step outer closer out token rest with
    | .close => ⟨⟨out.toNodes, true, rest⟩, Nat.le_succ _⟩
    | .leave => ⟨⟨out.toNodes, false, token :: rest⟩, Nat.le_refl _⟩
    | .proceed out taken =>
      let ended := readLevel outer closer out (rest.drop taken)
      ⟨ended.1, by
        have := ended.2
        simp only [List.length_drop, List.length_cons] at *
        omega⟩
    | .nest inner span =>
      let body := readLevel (closer :: outer) inner .empty rest
      let ended := readLevel outer closer (out.addSpan token.text span body.1) body.1.rest
      ⟨ended.1, Nat.le_succ_of_le (Nat.le_trans ended.2 body.2)⟩
termination_by tokens.length
decreasing_by
  · simp only [List.length_drop, List.length_cons]
    omega
  · exact Nat.lt_succ_self _
  · exact Nat.lt_succ_of_le body.2

/-! ## Whole texts -/

/-- Applies `f` to the text of a node that is text. -/
def mapText (f : Text → Text) : Node → Node
  | .text t => .text (f t)
  | node => node

def isEmptyText : Node → Bool
  | .text [] => true
  | _ => false

def trimFirst : List Node → List Node
  | [] => []
  | node :: rest => mapText Text.trimStart node :: rest

def trimLast : List Node → List Node
  | [] => []
  | [node] => [mapText Text.trimEnd node]
  | node :: rest => node :: trimLast rest

def trimEnds (nodes : List Node) : List Node :=
  (trimLast (trimFirst nodes)).filter fun node => !isEmptyText node

/-- The inline nodes that a text writes. -/
def parse (t : Text) : List Node :=
  trimEnds (readLevel [] .finish .empty (Lexeme.ofTokens false (InlineToken.lex t))).1.nodes

end DocComment.Inline
