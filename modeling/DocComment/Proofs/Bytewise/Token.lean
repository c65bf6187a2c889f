import DocComment.Line.Tokenizer
import DocComment.Proofs.Bytewise.Row
import DocComment.Proofs.Bytewise.Segments
import DocComment.Proofs.Line.Stream

/-!
# Tokens in bytes

A line inside a fence is cut where its end tag starts and where it ends, a line outside at its
commands, and what follows an opener or an end tag is read again. A tokenizer that cuts its lines
so hands out the same tokens.
-/

set_option autoImplicit false

namespace DocComment

/-- A command in front of the opener of a fence opens none. -/
theorem Segments.commands_closed (wordStart inCode : Bool) (t : Text) :
    ∀ command ∈ (cut wordStart inCode t).commands, Fence.ofName? command.name = none := by
  induction t generalizing wordStart inCode with
  | nil => simp [cut, nil]
  | cons c t ih =>
    rw [cut]
    split
    next => simp
    next name closed found =>
      obtain ⟨read, -⟩ := Option.filter_eq_some_iff.1 found
      rw [read, Option.bind_some] at closed
      exact List.forall_mem_cons.2 ⟨closed, ih false false⟩
    next => exact ih _ _

theorem Fence.ofName?_name (fence : Fence) : ofName? fence.name = some fence := by
  cases fence <;> rfl

namespace Bytewise

/-! ## Tokens of a part -/

/-- The kind of a text without block commands. -/
def kind? (t : Text) : Option Token.Kind :=
  match QuoteLine.read? t with
  | some quoted => some (.quote quoted.indent quoted.text)
  | none =>
  match TableLine.separator? t with
  | some alignments => some (.tableSeparator alignments)
  | none => do
  match ← cells? t with
  | some cells => some (.tableRow cells)
  | none =>
  match ListLine.read? t with
  | some item => some (.listItem item.marker item.indent (Text.trimEnd item.text))
  | none =>
    let trimmed := Text.trimStart t
    some (.text (Text.bytes t - Text.bytes trimmed) (Text.trimEnd trimmed))

/-- The fence that a part opens, what follows its name, and the whole part. -/
def LinePart.opener? : LinePart → Option (Fence × Text × Text)
  | .text _ => none
  | .command name rest _ raw => (Fence.ofName? name).map (·, rest, raw)

/-- The tokens of a part that opens no fence. -/
def LinePart.tokens? (line : Nat) : LinePart → Option (List Token)
  | .text raw =>
    if Text.isBlank raw then some [] else (kind? raw).map fun kind => [⟨line, kind, raw⟩]
  | .command name rest column raw =>
    if BlockCommand.ofName? name = some .listItem then
      some [⟨line, .listItem .bullet column (Text.trim rest), raw⟩]
    else some [⟨line, .command name (Text.trim rest), raw⟩]

/-- The tokens of the parts of a line up to the one that opens a fence. -/
def beforeOpener? (line : Nat) : List LinePart → Option (List Token)
  | [] => some []
  | part :: parts =>
    if part.opener?.isSome then some []
    else do
      let here ← part.tokens? line
      let later ← beforeOpener? line parts
      some (here ++ later)

theorem kind?_eq (t : Text) : kind? t = some (.ofText t) := by
  unfold kind? Token.Kind.ofText
  rw [cells?_eq]
  cases QuoteLine.read? t with
  | some quoted => rfl
  | none =>
    cases TableLine.separator? t with
    | some alignments => rfl
    | none =>
      cases TableLine.cells? t with
      | some cells => rfl
      | none => cases ListLine.read? t <;> rfl

section

variable {line column : Nat} {commands : List CommandText}
  (closed : ∀ command ∈ commands, Fence.ofName? command.name = none)
include closed

theorem beforeOpener?_ofCommands (opener : Option (Fence × Text)) :
    beforeOpener? line (LinePart.ofCommands column
        (commands ++ (opener.map fun opener => ⟨opener.1.name, opener.2⟩).toList)) =
      some (Token.ofCommands line column commands) := by
  induction commands generalizing column with
  | nil =>
    cases opener with
    | none => rfl
    | some opener =>
      simp [LinePart.ofCommands, LinePart.of, beforeOpener?, LinePart.opener?, Fence.ofName?_name,
        Token.ofCommands]
  | cons command rest ih =>
    obtain ⟨here, later⟩ := List.forall_mem_cons.1 closed
    have kind : (LinePart.of column (some command.name) command.raw).tokens? line =
        some [⟨line, .ofCommand column command, command.raw⟩] := by
      unfold LinePart.of LinePart.tokens? Token.Kind.ofCommand
      dsimp only
      split <;> rfl
    rw [List.cons_append, LinePart.ofCommands, beforeOpener?, kind, ih later]
    simp [LinePart.of, LinePart.opener?, here, Token.ofCommands]

theorem opener?_ofCommands (opener : Option (Fence × Text)) :
    (LinePart.ofCommands column
        (commands ++ (opener.map fun opener => ⟨opener.1.name, opener.2⟩).toList)).findSome?
          LinePart.opener? =
      opener.map fun opener => (opener.1, opener.2.drop (1 + opener.1.name.length), opener.2) := by
  induction commands generalizing column with
  | nil =>
    cases opener <;>
      simp [LinePart.ofCommands, LinePart.of, LinePart.opener?, Fence.ofName?_name]
  | cons command rest ih =>
    obtain ⟨here, later⟩ := List.forall_mem_cons.1 closed
    simp [LinePart.ofCommands, LinePart.of, LinePart.opener?, here, ih later]

end

theorem beforeOpener?_eq (line : Nat) (t : Text) :
    beforeOpener? line (LinePart.ofSegments 0 none [] (Segments.ofLine t)) =
      some (Token.beforeOpener line t) := by
  have text : (LinePart.text (Segments.ofLine t).text).tokens? line =
      some (Token.ofText line (Segments.ofLine t).text) := by
    unfold LinePart.tokens? Token.ofText
    dsimp only
    rw [kind?_eq]
    split <;> rfl
  have closed : ∀ command ∈ (Segments.ofLine t).commands, Fence.ofName? command.name = none :=
    Segments.commands_closed true false t
  rw [LinePart.ofSegments, LinePart.of, beforeOpener?, List.nil_append, text, Segments.commandTexts,
    beforeOpener?_ofCommands closed, Token.beforeOpener]
  simp [LinePart.opener?]

theorem opener?_eq (t : Text) :
    (LinePart.ofSegments 0 none [] (Segments.ofLine t)).findSome? LinePart.opener? =
      (Segments.ofLine t).opener.map fun opener =>
        (opener.1, opener.2.drop (1 + opener.1.name.length), opener.2) := by
  have closed : ∀ command ∈ (Segments.ofLine t).commands, Fence.ofName? command.name = none :=
    Segments.commands_closed true false t
  rw [LinePart.ofSegments, List.findSome?_cons, Segments.commandTexts, opener?_ofCommands closed]
  rfl

theorem opener?_spec {t : Text} {parts : List LinePart} {fence : Fence} {rest raw : Text}
    (cut : parts? t = some parts)
    (opened : parts.findSome? LinePart.opener? = some (fence, rest, raw)) :
    (Segments.ofLine t).opener = some (fence, raw) ∧ rest = raw.drop (1 + fence.name.length) := by
  obtain rfl : _ = parts := Option.some.inj ((parts?_eq t).symm.trans cut)
  rw [opener?_eq, Option.map_eq_some_iff] at opened
  obtain ⟨⟨fence, raw⟩, opener, same⟩ := opened
  cases same
  exact ⟨opener, rfl⟩

/-! ## Tokens of a line -/

theorem closeSpan?_spec {fence : Fence} {t : Text} {start stop : Nat}
    (h : closeSpan? fence t = some (some (start, stop))) : ∃ cut, fence.close? t = some cut ∧
      Text.takeBytes? start t = some cut.before ∧ Text.slice? start stop t = some cut.tag ∧
      Text.dropBytes? stop t = some cut.after := by
  rw [closeSpan?_eq, Fence.closeSpan?, Option.some_inj, Option.map_eq_some_iff] at h
  obtain ⟨cut, closed, span⟩ := h
  cases span
  have whole : t = cut.before ++ cut.tag ++ cut.after := by
    simpa using (Fence.close?_append closed).1
  refine ⟨cut, closed, ?_, ?_, ?_⟩
  · rw [whole, List.append_assoc, Text.takeBytes?_bytes]
  · rw [← Text.bytes_append, whole, Text.slice?_bytes]
  · rw [← Text.bytes_append, whole, Text.dropBytes?_bytes]

/-- The tokens of a text and the fence that it leaves open. -/
def scan? (line : Nat) (fence : Option Fence) (t : Text) : Option (List Token × Option Fence) :=
  match fence with
  | some fence =>
    match _ : closeSpan? fence t with
    | none => none
    | some none => some ([⟨line, .fenceBody t, t⟩], some fence)
    | some (some (start, stop)) =>
      match _ : Text.dropBytes? stop t with
      | none => none
      | some after => do
        let before ← Text.takeBytes? start t
        let tag ← Text.slice? start stop t
        let body := Text.trimEnd before
        let here := (if Text.isBlank body then [] else [⟨line, .fenceBody body, body⟩]) ++
          [⟨line, .fenceClose fence false, tag⟩]
        if (Text.trimStart after).isEmpty then some (here, none)
        else
          let later ← scan? line none (Text.trimStart after)
          some (here ++ later.1, later.2)
  | none =>
    match _ : parts? t with
    | none => none
    | some parts => do
      let here ← beforeOpener? line parts
      match _ : parts.findSome? LinePart.opener? with
      | none => some (here, none)
      | some (fence, rest, raw) =>
        match _ : argument? fence rest with
        | none => none
        | some split =>
          let start : Token := ⟨line, .fenceOpen fence split.1, raw⟩
          if Text.isBlank split.2 then some (here ++ [start], some fence)
          else do
            let later ← scan? line (some fence) (Text.trimStart split.2)
            some (here ++ start :: later.1, later.2)
termination_by t.length
decreasing_by
  · obtain ⟨cut, closed, -, -, behind⟩ := closeSpan?_spec ‹_›
    obtain rfl : cut.after = after := by simpa [behind] using ‹Text.dropBytes? stop t = some after›
    exact Nat.lt_of_le_of_lt (Text.trimStart_length _) (Fence.close?_length closed)
  · obtain ⟨opened, rfl⟩ := opener?_spec ‹parts? t = some parts› ‹_›
    obtain rfl : fence.argument _ = split := Option.some.inj ((argument?_eq _ _).symm.trans ‹_›)
    exact Segments.body_length opened

theorem scan?_eq (line : Nat) (fence : Option Fence) (t : Text) :
    scan? line fence t = some (Token.scan line fence t) := by
  induction size : t.length using Nat.strong_induction_on generalizing fence t with
  | h n ih =>
  subst size
  cases fence with
  | some fence =>
    rw [scan?]
    split
    next outside => simp [closeSpan?_eq] at outside
    next unclosed =>
      rw [closeSpan?_eq, Fence.closeSpan?, Option.some_inj, Option.map_eq_none_iff] at unclosed
      rw [Token.scan_unclosed unclosed]
    next start stop found =>
      obtain ⟨cut, closed, front, tag, behind⟩ := closeSpan?_spec found
      split
      next outside => simp [behind] at outside
      next after read =>
        obtain rfl : cut.after = after := by simpa [behind] using read
        have shorter := Nat.lt_of_le_of_lt (Text.trimStart_length cut.after)
          (Fence.close?_length closed)
        have later := ih _ shorter none (Text.trimStart cut.after) rfl
        rw [Token.scan_closed closed, front, tag, later]
        split
        next empty =>
          have nothing : Token.scan line none [] = ([], none) := Token.scan_unopened rfl line
          rw [List.isEmpty_iff.1 empty, nothing, List.append_nil]
          rfl
        next => rfl
  | none =>
    rw [scan?]
    split
    next outside => simp [parts?_eq] at outside
    next parts found =>
      obtain rfl : _ = parts := Option.some.inj ((parts?_eq t).symm.trans found)
      rw [beforeOpener?_eq, Option.bind_eq_bind, Option.bind_some]
      split
      next unopened =>
        rw [opener?_eq, Option.map_eq_none_iff] at unopened
        rw [Token.scan_unopened unopened]
      next fence rest raw opened =>
        obtain ⟨opener, rfl⟩ := opener?_spec found opened
        rw [Token.scan_opened opener]
        split
        next outside => simp [argument?_eq] at outside
        next split read =>
          obtain rfl : fence.argument _ = split :=
            Option.some.inj ((argument?_eq _ _).symm.trans read)
          have later := ih _ (Segments.body_length opener) (some fence) _ rfl
          rw [later]
          unfold Token.fenceStart
          dsimp only
          split <;> rfl

/-- The tokens of a whole line. -/
def ofLine? (line : Nat) (fence : Option Fence) (t : Text) : Option (List Token × Option Fence) :=
  if fence.isNone && Text.isBlank t then some ([⟨line, .blank, t⟩], none) else scan? line fence t

theorem ofLine?_eq (line : Nat) (fence : Option Fence) (t : Text) :
    ofLine? line fence t = some (Token.ofLine line fence t) := by
  unfold ofLine? Token.ofLine
  rw [scan?_eq]
  split <;> rfl

/-! ## Tokens one by one -/

/-- Reads the unread lines up to the first that gives a token. -/
def readLine? (lines : List Text) (line : Nat) (fence : Option Fence) :
    List Text → Option (Option Token × Tokenizer)
  | [] =>
    some (fence.map fun fence => ⟨line, .fenceClose fence true, []⟩, ⟨lines, [], line, none, []⟩)
  | t :: rest => do
    let here ← ofLine? line fence t
    match here.1 with
    | [] => readLine? lines (line + 1) here.2 rest
    | token :: pending => some (some token, ⟨lines, rest, line + 1, here.2, pending⟩)

def next? (s : Tokenizer) : Option (Option Token × Tokenizer) :=
  match s.pending with
  | token :: pending => some (some token, { s with pending := pending })
  | [] => readLine? s.lines s.line s.fence s.unread

theorem readLine?_eq (lines : List Text) (line : Nat) (fence : Option Fence) (unread : List Text) :
    readLine? lines line fence unread = some (Tokenizer.readLine lines line fence unread) := by
  induction unread generalizing line fence with
  | nil => rfl
  | cons t rest ih =>
    rw [readLine?, ofLine?_eq, Tokenizer.readLine, Option.bind_eq_bind, Option.bind_some]
    cases (Token.ofLine line fence t).1 with
    | nil => exact ih _ _
    | cons token pending => rfl

theorem next?_eq (s : Tokenizer) : next? s = some s.next := by
  unfold next? Tokenizer.next
  cases s.pending with
  | nil => exact readLine?_eq s.lines s.line s.fence s.unread
  | cons token pending => rfl

end Bytewise

end DocComment
