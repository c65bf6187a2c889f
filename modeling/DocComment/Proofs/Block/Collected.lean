import DocComment.Markup.Preorder
import DocComment.Proofs.Block.Depth
import DocComment.Proofs.Block.Opening
import DocComment.Proofs.Line.Spelled

/-!
# The lines of a definition list

The reader never sees the lines of a definition list. It puts the texts of their tokens together
again, and it stops at the token that closes the list, which need not be the last one of its line.
Where the tokens neither repeat nor leave out a part of a line, what comes together are the lines,
and the list is the one that they spell.
-/

set_option autoImplicit false

namespace DocComment

namespace DefinitionTag

/-- How many lists some texts open beyond those that they close. -/
def opened (texts : List Text) : Int := (texts.map balance).sum

/-- Whether the lists that some texts open are all closed after the last text and not before. -/
def ClosedByLast (texts : List Text) : Prop :=
  opened texts ≤ 0 ∧ ∀ n < texts.length, 0 < n → 0 < opened (texts.take n)

instance (texts : List Text) : Decidable (ClosedByLast texts) :=
  inferInstanceAs (Decidable (_ ∧ _))

@[simp]
theorem opened_cons (t : Text) (texts : List Text) :
    opened (t :: texts) = balance t + opened texts := by
  simp [opened]

end DefinitionTag

open DefinitionTag

namespace BlockReader

/-! ## Collecting -/

/-- The lines of a list with the texts of some tokens added. -/
def collect : List Text → Nat → List Token → List Text
  | lines, _, [] => lines
  | lines, lastLine, token :: rest =>
    collect (joinLine lines lastLine token.line token.spelling) token.line rest

theorem joinLine_new {lastLine line : Nat} (new : lastLine ≠ line) (lines : List Text)
    (t : Text) : joinLine lines lastLine line t = lines ++ [t] := if_neg new

theorem joinLine_same (line : Nat) (lines : List Text) (t more : Text) :
    joinLine (lines ++ [t]) line line more = lines ++ [t ++ more] := by
  simp [joinLine]

/-- Tokens of one line add one line. -/
theorem collect_line {line : Nat} {tokens : List Token} (same : ∀ token ∈ tokens, token.line = line)
    (nonempty : tokens ≠ []) {lastLine : Nat} (new : lastLine ≠ line) (lines : List Text)
    (rest : List Token) : collect lines lastLine (tokens ++ rest) =
      collect (lines ++ [Token.spell tokens]) line rest := by
  have later (t : Text) (tokens : List Token) (same : ∀ token ∈ tokens, token.line = line) :
      collect (lines ++ [t]) line (tokens ++ rest) =
        collect (lines ++ [t ++ Token.spell tokens]) line rest := by
    induction tokens generalizing t with
    | nil => simp
    | cons token tokens ih =>
      obtain ⟨here, same⟩ := List.forall_mem_cons.mp same
      rw [List.cons_append, collect, here, joinLine_same, ih _ same, Token.spell_cons,
        List.append_assoc]
  cases tokens with
  | nil => exact absurd rfl nonempty
  | cons token tokens =>
    obtain ⟨here, same⟩ := List.forall_mem_cons.mp same
    rw [List.cons_append, collect, here, joinLine_new new, later _ _ same, Token.spell_cons]

/-- What is collected from the tokens of lines are the lines. -/
theorem collect_written {fence : Option Fence} {texts : List Text} {line : Nat}
    (once : ∀ token ∈ (Token.written line fence texts).1, token.repeats = false) {lastLine : Nat}
    (new : lastLine ≠ line) (lines : List Text) :
    collect lines lastLine (Token.written line fence texts).1 =
      lines ++ Token.keptLines fence texts := by
  induction texts generalizing fence lastLine line lines with
  | nil => simp [Token.written, Token.keptLines, collect]
  | cons t rest ih =>
    rw [Token.written] at once ⊢
    obtain ⟨here, later⟩ := List.forall_mem_append.mp once
    rw [collect_line (fun token mem => (Token.mem_ofLine mem).1) (Token.ofLine_ne_nil line fence t)
      new, Token.spell_ofLine here, ih later (Nat.ne_of_lt (Nat.lt_succ_self line)),
      Token.keptLines, Token.ofLine_snd, List.append_assoc, List.singleton_append]

/-! ## Reading -/

variable (options : Options)

theorem feed_definitions (start : Nat) (lines : List Text) (depth : Int) (lastLine : Nat)
    (closed : List Item) (token : Token) :
    feed options ⟨some (.definitions start lines depth lastLine), closed⟩ token =
      extendDefinitions ⟨none, closed⟩ start (joinLine lines lastLine token.line token.spelling)
        (depth + balance token.spelling) token.line := rfl

/-- A list collects tokens up to the one that closes it. -/
theorem foldl_definitions {tokens : List Token} (nonempty : tokens ≠ []) {depth : Int}
    (closes : depth + opened (tokens.map Token.spelling) ≤ 0)
    (inside : ∀ n < tokens.length, 0 < n →
      0 < depth + opened ((tokens.map Token.spelling).take n))
    (start : Nat) (lines : List Text) (lastLine : Nat) (closed : List Item) :
    tokens.foldl (feed options) ⟨some (.definitions start lines depth lastLine), closed⟩ =
      ⟨none, closed ++ [.definitions start (collect lines lastLine tokens)]⟩ := by
  induction tokens generalizing depth lines lastLine with
  | nil => exact absurd rfl nonempty
  | cons token rest ih =>
    rw [List.map_cons, opened_cons, ← add_assoc] at closes
    rw [List.foldl_cons, feed_definitions, extendDefinitions, collect]
    cases rest with
    | nil =>
      have done : depth + balance token.spelling ≤ 0 := by simpa [opened] using closes
      simp [extend, close, done, OpenBlock.items, not_lt.mpr done, collect]
    | cons next rest =>
      have still : 0 < depth + balance token.spelling := by
        simpa [opened] using inside 1 (by simp) Nat.one_pos
      rw [if_neg (not_le.mpr still)]
      refine ih (List.cons_ne_nil _ _) closes (fun n hn pos => ?_) _ _
      have := inside (n + 1) (Nat.succ_lt_succ hn) n.succ_pos
      rwa [List.map_cons, List.take_succ_cons, opened_cons, ← add_assoc] at this

/-- A list opens at the first token of a line that starts with its tag. -/
theorem feed_opening {line margin : Nat} {text raw : Text}
    (shallow : margin < options.verbatimIndent) (opens : startsList text = true) :
    feed options empty ⟨line, .text margin text, raw⟩ =
      feed options ⟨some (.definitions line [] 0 (line + 1)), []⟩
        ⟨line, .text margin text, raw⟩ := by
  have written : joinLine [] (line + 1) line raw = [raw] :=
    joinLine_new (Nat.succ_ne_self line) [] raw
  rw [feed_definitions, Token.spelling_of_ne (by simp), written, zero_add]
  simp [feed, empty, outside, plainLine, Nat.not_le.mpr shallow, opens, close]

/-- The end of a fence that is left open says nothing where no block is open. -/
theorem foldl_unclosed (line : Nat) (fence : Option Fence) (closed : List Item) :
    (Token.ofLines line fence []).foldl (feed options) ⟨none, closed⟩ = ⟨none, closed⟩ := by
  cases fence <;> rfl

end BlockReader

/-! ## Lists from first to last line -/

/-- Lines that a definition list takes up from the first to the last. -/
structure DefinitionLines (options : Options) (lines : List Text) : Prop where
  clean : ControlCharacter.find? 0 lines = none
  opens : ∃ first ∈ lines.head?,
    startsList first = true ∧ Definition.margin first < options.verbatimIndent
  /-- The lists that are open are counted token by token. -/
  closes : ClosedByLast ((Token.written 0 none lines).1.map Token.spelling)
  /-- No body of a fence starts on the line of its opener. -/
  once : ∀ token ∈ (Token.written 0 none lines).1, token.repeats = false
  /-- No white space stands alone before the first command of a line or next to an end tag. -/
  whole : Token.allWhole none lines = true

namespace DefinitionLines

variable {options : Options} {lines : List Text}

/-- The first token is read as if a list without lines were open. -/
theorem feed_first (h : DefinitionLines options lines) : ∃ token more,
    (Token.written 0 none lines).1 = token :: more ∧
      BlockReader.feed options BlockReader.empty token =
        BlockReader.feed options ⟨some (.definitions 0 [] 0 1), []⟩ token := by
  obtain ⟨first, start, tag, shallow⟩ := h.opens
  obtain ⟨rest, rfl⟩ : ∃ rest, lines = first :: rest := List.head?_eq_some_iff.mp start
  obtain ⟨raw, text, more, tokens, opens⟩ := Token.ofLine_startsList 0 tag
  let later := (Token.written 1 (Token.ofLine 0 none first).2 rest).1
  have written : (Token.written 0 none (first :: rest)).1 =
      ⟨0, .text (Definition.margin first) text, raw⟩ :: (more ++ later) :=
    congrArg (· ++ later) tokens
  exact ⟨_, _, written, BlockReader.feed_opening options shallow opens⟩

theorem foldl_written (h : DefinitionLines options lines) :
    (Token.written 0 none lines).1.foldl (BlockReader.feed options) BlockReader.empty =
      ⟨none, [.definitions 0 (Token.emptied none lines)]⟩ := by
  obtain ⟨token, more, tokens, first⟩ := h.feed_first
  have nonempty : (Token.written 0 none lines).1 ≠ [] := by simp [tokens]
  have closes : 0 + opened ((Token.written 0 none lines).1.map Token.spelling) ≤ 0 := by
    simpa using h.closes.1
  have collected := BlockReader.foldl_definitions options nonempty closes
    (by simpa using h.closes.2) 0 [] 1 []
  rw [BlockReader.collect_written h.once Nat.one_ne_zero, Token.keptLines_of_allWhole h.whole]
    at collected
  rw [tokens, List.foldl_cons, first, ← List.foldl_cons, ← tokens]
  exact collected

theorem read_eq (h : DefinitionLines options lines) :
    BlockReader.read options (Token.ofLines 0 none lines) =
      [.definitions 0 (Token.emptied none lines)] := by
  have whole := Token.ofLines_append 0 none lines []
  rw [List.append_nil] at whole
  rw [BlockReader.read, whole, List.foldl_append, h.foldl_written, BlockReader.foldl_unclosed]
  rfl

end DefinitionLines

@[simp]
theorem Diagnostic.shift_zero (d : Diagnostic) : d.shift 0 = d := by
  cases d with
  | mk problem file line => simp [shift]

theorem Item.completeAll_definitions (inner : BlockParser) (lines : List Text) :
    completeAll inner [.definitions 0 lines] =
      (Definition.parse inner lines).map fun list => ⟨[list.1], list.2⟩ := by
  have shift : Diagnostic.shift 0 = id := funext Diagnostic.shift_zero
  cases h : Definition.parse inner lines <;>
    simp [completeAll, complete, h, shift, Blocks.concat, Blocks.append]

namespace Blocks

/-- Lines that a definition list takes up are read as the list that they spell, where lines of white
space count as empty unless they are in a fence. -/
theorem parse_definitionLines {options : Options} {lines : List Text}
    (h : DefinitionLines options lines) :
    let spelled := Token.emptied none lines
    (∀ levels, parseWithin options (levels + 1) lines =
      (Definition.parse (parseWithin options levels) spelled).map
        fun list => ⟨[list.1], list.2⟩) ∧
    ∀ list diagnostics, Definition.parse (parse options) spelled = some (list, diagnostics) →
      parse options lines = some ⟨[list], diagnostics⟩ := by
  intro spelled
  have within (levels : Nat) : parseWithin options (levels + 1) lines =
      (Definition.parse (parseWithin options levels) spelled).map
        fun list => ⟨[list.1], list.2⟩ := by
    have tokens : tokenize lines = .ok (Token.ofLines 0 none lines) := by
      rw [tokenize, h.clean]
    rw [parseWithin, tokens]
    dsimp only
    rw [h.read_eq, Item.completeAll_definitions]
  refine ⟨within, fun list diagnostics found => ?_⟩
  -- What is inside the list is smaller than the lines, so it needs fewer levels.
  have size := Token.size_keptLines none lines
  rw [Token.keptLines_of_allWhole h.whole] at size
  have fits : (Item.definitions 0 spelled).Fits (Text.size lines) := size
  obtain ⟨levels, enough⟩ : ∃ levels, Blocks.levels lines = levels + 1 :=
    Nat.exists_eq_succ_of_ne_zero (Nat.ne_of_gt (Nat.two_pow_pos _))
  have inside : ∀ ls ∈ (Item.definitions 0 spelled).inside, ∀ b, parse options ls = some b →
      parseWithin options levels ls = some b := by
    intro ls mem b
    refine parseWithin_mono options ?_
    have smaller : Blocks.levels ls < Blocks.levels lines :=
      Nat.pow_lt_pow_right Nat.one_lt_two (fits.inside ls mem)
    omega
  rw [parse, enough, within, Definition.parse_of_some inside found]
  rfl

/-- A list whose lines are spelled by more than one token each. -/
def looseDefinition : List Text :=
  ["<dl><dt>a  ".toList, "@li x".toList, " ".toList, "<dd> b @code{.c}".toList, "  y".toList,
    "  z@endcode</dl>".toList]

theorem looseDefinition_spelled :
    DefinitionLines {} looseDefinition ∧
      Token.emptied none looseDefinition =
        ["<dl><dt>a  ".toList, "@li x".toList, [], "<dd> b @code{.c}".toList, "  y".toList,
          "  z@endcode</dl>".toList] ∧
      ∃ list, Definition.parse (parse {}) (Token.emptied none looseDefinition) =
          some (list, []) ∧
        parse {} looseDefinition = some ⟨[list], []⟩ := by
  have lines : DefinitionLines {} looseDefinition :=
    ⟨by decide +kernel, by decide +kernel, by decide +kernel, by decide +kernel, by decide +kernel⟩
  refine ⟨lines, by decide +kernel, ?_⟩
  have reads : ((Definition.parse (parse {}) (Token.emptied none looseDefinition)).map
      Prod.snd) = some [] := by decide +kernel
  obtain ⟨⟨list, diagnostics⟩, found, rfl⟩ := Option.map_eq_some_iff.mp reads
  exact ⟨list, found, (parse_definitionLines lines).2 list [] found⟩

/-- A list with a term that goes over three lines. -/
def longTerm : List Text := ["<dl><dt>`a".toList, "  ".toList, "b`</dt></dl>".toList]

/-- A block command that stands behind the end of a list on the same line is read by itself. Where
nothing stands there, the list still is not always that of its lines: a line of white space inside a
term is read as an empty one. -/
theorem endOfList_inLine :
    (¬ ∀ (options : Options) (first : Text) (rest : List Text),
      ControlCharacter.find? 0 (first :: rest) = none →
      Definition.margin first < options.verbatimIndent → startsList first = true →
      ClosedByLast (first :: rest) →
      ∀ list diagnostics,
        Definition.parse (parse options) (first :: rest) = some (list, diagnostics) →
          parse options (first :: rest) = some ⟨[list], diagnostics⟩) ∧
    ¬ ∀ (options : Options) (lines : List Text), DefinitionLines options lines →
      ∀ list diagnostics, Definition.parse (parse options) lines = some (list, diagnostics) →
        parse options lines = some ⟨[list], diagnostics⟩ := by
  constructor
  · intro alone
    have one := alone {} "<dl></dl> @li x".toList [] (by decide +kernel) (by decide +kernel)
      (by decide +kernel) (by decide +kernel) (.definitionList []) [] rfl
    have two : (parse {} ["<dl></dl> @li x".toList]).map (fun b => b.nodes.length) = some 2 := by
      decide +kernel
    rw [one] at two
    cases two
  · intro same
    have lines : DefinitionLines {} longTerm := ⟨by decide +kernel, by decide +kernel,
      by decide +kernel, by decide +kernel, by decide +kernel⟩
    have spelled : (Definition.parse (parse {}) longTerm).map (fun list => list.1.plainText) =
        some "a    b".toList := by
      decide +kernel
    have read : (parse {} longTerm).map (fun b => b.nodes.map Node.plainText) =
        some ["a  b".toList] := by
      decide +kernel
    obtain ⟨⟨list, diagnostics⟩, found, text⟩ := Option.map_eq_some_iff.mp spelled
    rw [same {} longTerm lines list diagnostics found] at read
    have shown : list.plainText = "a  b".toList := by simpa using read
    rw [shown] at text
    cases text

end Blocks

end DocComment
