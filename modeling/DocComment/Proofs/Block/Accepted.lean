import DocComment.Proofs.Block.Bodies
import DocComment.Proofs.Block.Depth

/-!
# Lines without control characters

Lines are read unless one of them holds a control character other than the tab. Nothing that is
read inside a block holds a character that its lines do not hold, so what is inside accepted lines
is accepted as well, however deep it lies: blocks inside are never kept as one paragraph for a
character that cannot be read.
-/

set_option autoImplicit false

namespace DocComment

/-- Whether a text can stand in a line that is read. -/
def Text.Accepted (t : Text) : Prop := ∀ c ∈ t, isControl c = true → c = '\t'

theorem Text.Accepted.mono {t u : Text} (h : t.Accepted) (sub : u ⊆ t) : u.Accepted :=
  fun c mem => h c (sub mem)

theorem Text.Accepted.not_feed {t : Text} (h : t.Accepted) : '\n' ∉ t :=
  fun mem => absurd (h _ mem rfl) (by decide)

theorem Tokenizer.accepts_iff {lines : List Text} :
    (∃ s, ofLines lines = .ok s) ↔ ∀ t ∈ lines, t.Accepted := by
  unfold Text.Accepted ofLines
  rw [← @ControlCharacter.find?_eq_none_iff 0]
  cases ControlCharacter.find? 0 lines <;> simp

theorem tokenize_accepted {lines : List Text} (h : ∀ t ∈ lines, t.Accepted) :
    tokenize lines = .ok (Token.ofLines 0 none lines) := by
  rw [tokenize, ControlCharacter.find?_eq_none_iff.mpr h]

/-! ## What is collected -/

/-- Whether the lines that an item was collected from can be read. -/
def Item.Accepted : Item → Prop
  | .quote _ lines | .definitions _ lines => ∀ l ∈ lines, l.Accepted
  | .node _ | .report _ _ => True

theorem Item.IsText.accepted {item : Item} {token : Token} (h : item.IsText token) :
    item.Accepted := by
  cases item with
  | quote | definitions => exact h.elim
  | _ => trivial

/-- What is read inside an item can be read. The lines of a definition are pieces of the lines that
its list was collected from. -/
theorem Item.Accepted.inside {item : Item} (h : item.Accepted) :
    ∀ lines ∈ item.inside, ∀ l ∈ lines, l.Accepted := by
  cases item with
  | quote line lines => exact List.forall_mem_singleton.mpr h
  | definitions line lines =>
    intro inner mem l known
    rw [Item.inside_definitions, ← Definition.snd_places] at mem
    obtain ⟨body, placed, rfl⟩ := List.mem_map.mp mem
    obtain ⟨⟨start, _⟩, place, rfl⟩ := List.mem_map.mp placed
    obtain ⟨i, found⟩ := List.mem_iff_getElem?.mp known
    obtain ⟨whole, line, piece⟩ :=
      Definition.bodyLines_place (fun l mem => (h l mem).not_feed) place found
    exact (h whole (List.mem_of_getElem? line)).mono piece.subset
  | _ => simp [Item.inside]

/-- Whether what a token holds can be read, and what it quotes. -/
structure Token.Accepted (token : Token) : Prop where
  raw : token.raw.Accepted
  quote : ∀ indent text, token.kind = .quote indent text → text.Accepted

theorem Token.accepted_ofLines {lines : List Text} (h : ∀ t ∈ lines, t.Accepted) (line : Nat)
    (fence : Option Fence) : ∀ token ∈ ofLines line fence lines, token.Accepted := by
  intro token mem
  have from_ := readFrom_ofLines line fence lines token mem
  have raw : token.raw.Accepted := by
    intro c known
    obtain ⟨t, line, inside⟩ := List.mem_flatten.mp (from_.raw known)
    exact h t line c inside
  refine ⟨raw, fun indent text kind => raw.mono ?_⟩
  obtain ⟨c, behind⟩ := QuoteLine.read?_suffix (from_.quote indent text kind)
  exact ((List.suffix_cons c text).trans behind).subset

theorem Token.Accepted.spelling {token : Token} (h : token.Accepted) :
    token.spelling.Accepted := by
  unfold Token.spelling
  split
  · exact nofun
  · exact h.raw

namespace BlockReader

variable {options : Options} {r : BlockReader}

/-- Whether everything that a reader has collected can be read. -/
def Accepted (r : BlockReader) : Prop := ∀ item ∈ r.items, item.Accepted

theorem accepted_joinLine {lines : List Text} (h : ∀ l ∈ lines, l.Accepted) {text : Text}
    (ht : text.Accepted) (lastLine line : Nat) :
    ∀ l ∈ joinLine lines lastLine line text, l.Accepted := by
  unfold joinLine
  split
  · refine List.forall_mem_append.mpr
      ⟨fun l mem => h l (List.dropLast_subset _ mem), List.forall_mem_singleton.mpr ?_⟩
    refine List.forall_mem_append.mpr ⟨?_, ht⟩
    cases last : lines.getLast? with
    | none => exact nofun
    | some l => exact h l (List.mem_of_getLast? last)
  · exact List.forall_mem_append.mpr ⟨h, List.forall_mem_singleton.mpr ht⟩

/-- One token. -/
theorem Accepted.feed (h : r.Accepted) {token : Token} (ht : token.Accepted) :
    (r.feed options token).Accepted := by
  have reads := reads_feed options r token
  generalize r.feed options token = after at reads ⊢
  cases reads with
  | ignored => exact h
  | text added => exact fun item mem => (added.items item mem).elim (h item) Item.IsText.accepted
  | quote kind =>
    have quoted := List.forall_mem_singleton.mpr (ht.quote _ _ kind)
    exact forall_items_begin h (List.forall_mem_singleton.mpr quoted)
  | quoteOn kind current =>
    have before := (forall_items_iff.mp h).2 _ current _ (List.mem_singleton.mpr rfl)
    have quoted := List.forall_mem_singleton.mpr (ht.quote _ _ kind)
    exact forall_items_extend h
      (List.forall_mem_singleton.mpr (List.forall_mem_append.mpr ⟨before, quoted⟩))
  | list =>
    have raw := List.forall_mem_singleton.mpr ht.raw
    exact forall_items_extendDefinitions (forall_items_close h) raw trivial
  | @listOn start lastLine lines depth current =>
    have before : ∀ l ∈ lines, l.Accepted :=
      (forall_items_iff.mp h).2 _ current (.definitions start lines) (by simp [OpenBlock.items])
    exact forall_items_extendDefinitions h (accepted_joinLine before ht.spelling _ _) trivial

/-- All tokens, one after another. -/
theorem Accepted.foldl {tokens : List Token} (ht : ∀ token ∈ tokens, token.Accepted)
    (h : r.Accepted) : (tokens.foldl (BlockReader.feed options) r).Accepted := by
  induction tokens generalizing r with
  | nil => exact h
  | cons token rest ih =>
    obtain ⟨here, later⟩ := List.forall_mem_cons.mp ht
    exact ih later (h.feed here)

end BlockReader

/-! ## Reading without a fallback -/

theorem Item.completeAll_congr {inner inner' : BlockParser} {items : List Item}
    (agree : ∀ ls ∈ items.flatMap Item.inside, inner ls = inner' ls) :
    completeAll inner items = completeAll inner' items := by
  refine Option.ext fun b => ⟨fun read => ?_, fun read => ?_⟩
  · exact completeAll_of_some (fun ls mem b found => (agree ls mem).symm.trans found) read
  · exact completeAll_of_some (fun ls mem b found => (agree ls mem).trans found) read

namespace Blocks

variable (options : Options)

/-- The blocks in some lines, if they nest at most `levels` deep and no line that is read at any
depth holds a control character. -/
def parseAccepted : Nat → BlockParser
  | 0, _ => none
  | levels + 1, lines =>
    match tokenize lines with
    | .error _ => none
    | .ok tokens =>
      Item.completeAll (parseAccepted levels) (BlockReader.read options tokens)

variable {options}

theorem inside_accepted {lines : List Text} (h : ∀ t ∈ lines, t.Accepted) :
    ∀ inner ∈ inside options lines, ∀ t ∈ inner, t.Accepted := by
  intro inner mem
  rw [inside, tokenize_accepted h] at mem
  obtain ⟨item, read, within⟩ := List.mem_flatMap.mp mem
  have nothing : BlockReader.empty.Accepted := List.forall_mem_nil _
  have clean : item.Accepted := nothing.foldl (Token.accepted_ofLines h 0 none) item read
  exact clean.inside inner within

theorem parseWithin_accepted {lines : List Text} (h : ∀ t ∈ lines, t.Accepted) (levels : Nat) :
    parseWithin options levels lines = parseAccepted options levels lines := by
  induction levels generalizing lines with
  | zero => rfl
  | succ levels ih =>
    have below := @inside_accepted options lines h
    rw [parseWithin, parseAccepted, tokenize_accepted h]
    rw [inside, tokenize_accepted h] at below
    exact Item.completeAll_congr fun inner mem => ih (below inner mem)

/-- All lines that are read for accepted lines, at any depth of quotes and definitions, are
accepted; so they are read as without the fallback for lines that are not. -/
theorem nested_lines_accepted (options : Options) {lines : List Text} {s : Tokenizer}
    (accepted : Tokenizer.ofLines lines = .ok s) :
    (∀ inner, Relation.ReflTransGen (Contains options) lines inner →
      ∃ s, Tokenizer.ofLines inner = .ok s) ∧
      ∀ levels, parseWithin options levels lines = parseAccepted options levels lines := by
  have clean := Tokenizer.accepts_iff.mp ⟨s, accepted⟩
  refine ⟨fun inner path => Tokenizer.accepts_iff.mpr ?_, parseWithin_accepted clean⟩
  induction path with
  | refl => exact clean
  | tail _ step ih => exact inside_accepted ih _ step

/-- A quote in a definition in a quote, with a tab. -/
def tabbedQuote : List Text :=
  ["> <dl><dd>".toList, "> > a\tb".toList, "> </dd></dl>".toList]

/-- What the outer quote holds. -/
def tabbedDefinition : List Text := ["<dl><dd>".toList, "> a\tb".toList, "</dd></dl>".toList]

theorem tabbedQuote_accepted :
    Tokenizer.ofLines tabbedQuote = .ok (.start tabbedQuote) ∧
      Relation.ReflTransGen (Contains {}) tabbedQuote ["a\tb".toList] ∧
      (∃ s, Tokenizer.ofLines ["a\tb".toList] = .ok s) ∧
      (parseAccepted {} 4 tabbedQuote).isSome := by
  have accepted : Tokenizer.ofLines tabbedQuote = .ok (.start tabbedQuote) := by decide +kernel
  have outermost : tabbedDefinition ∈ inside {} tabbedQuote := by decide +kernel
  have definition : [[], "> a\tb".toList] ∈ inside {} tabbedDefinition := by decide +kernel
  have innermost : ["a\tb".toList] ∈ inside {} [[], "> a\tb".toList] := by decide +kernel
  have path : Relation.ReflTransGen (Contains {}) tabbedQuote ["a\tb".toList] :=
    ((Relation.ReflTransGen.single outermost).tail definition).tail innermost
  obtain ⟨nested, same⟩ := nested_lines_accepted {} accepted
  refine ⟨accepted, path, nested _ path, ?_⟩
  rw [← same]
  decide +kernel

end Blocks

end DocComment
