import DocComment.Line.Fence
import DocComment.Line.ListMarker
import DocComment.Line.Quote
import DocComment.Line.TableRow

/-!
# Line tokens

A line outside fences is cut at its block commands; the text before the first of them is
classified as a whole. Inside a fence nothing is read but the end tag. Lines are read one
after another, and all that a line leaves behind for the next one is the open fence.
-/

set_option autoImplicit false

namespace DocComment

inductive Token.Kind where
  /-- A block command with the rest of its part of the line. -/
  | command (name args : Text)
  | fenceOpen (fence : Fence) (arg : Option Text)
  /-- A line inside a fence. -/
  | fenceBody (text : Text)
  /-- The end of a fence; `isImplicit` if the comment ends before the end tag. -/
  | fenceClose (fence : Fence) (isImplicit : Bool)
  | listItem (marker : ListMarker) (indent : Nat) (text : Text)
  | tableRow (cells : List Text)
  | tableSeparator (alignments : List Alignment)
  | quote (indent : Nat) (text : Text)
  | blank
  | text (indent : Nat) (text : Text)
  deriving DecidableEq

structure Token where
  /-- The line within the comment, counted from zero. -/
  line : Nat
  kind : Token.Kind
  /-- The text that the token was read from. -/
  raw : Text
  deriving DecidableEq

def Token.isBlank (token : Token) : Bool := token.kind == .blank

/-! ## Cutting a line at its commands -/

/-- The part of a line from a block command up to the next one. -/
structure CommandText where
  name : Text
  /-- The whole part, with mark and name. -/
  raw : Text
  deriving DecidableEq

namespace CommandText

/-- What follows the name. -/
def rest (command : CommandText) : Text := command.raw.drop (1 + command.name.length)

end CommandText

/-- A line cut at its block commands. A fence opener takes the rest of the line with it. -/
structure Segments where
  text : Text
  commands : List CommandText
  opener : Option (Fence × Text)
  deriving DecidableEq

namespace Segments

def nil : Segments := ⟨[], [], none⟩

/-- One more character of text in front. -/
def consChar (c : Char) (s : Segments) : Segments := { s with text := c :: s.text }

/-- The text in front becomes the rest of a command. -/
def consCommand (name : Text) (mark : Char) (s : Segments) : Segments :=
  { s with text := [], commands := ⟨name, mark :: s.text⟩ :: s.commands }

/-- Cuts a line. A command starts the line or follows a space, and stands outside back
quotes. -/
def cut (wordStart inCode : Bool) : Text → Segments
  | [] => nil
  | c :: t =>
    let name? := if wordStart && !inCode && Command.isMark c then Command.name? t else none
    match name?.bind Fence.ofName?, name?.filter (BlockCommand.ofName? · |>.isSome) with
    | some fence, _ => ⟨[], [], some (fence, c :: t)⟩
    | none, some name => (cut false false t).consCommand name c
    | none, none => (cut (c == ' ') (inCode != (c == '\x60')) t).consChar c

def ofLine (line : Text) : Segments := cut true false line

/-- A fence opener takes the end of the line. -/
theorem cut_opener {t : Text} {wordStart inCode : Bool} {fence : Fence} {raw : Text}
    (h : (cut wordStart inCode t).opener = some (fence, raw)) : raw <:+ t ∧ raw ≠ [] := by
  induction t generalizing wordStart inCode with
  | nil => simp [cut, nil] at h
  | cons c t ih =>
    rw [cut] at h
    split at h
    · simp only [Option.some.injEq, Prod.mk.injEq] at h
      simp [← h.2]
    · exact (ih h).imp_left fun hs => hs.trans (List.suffix_cons c t)
    · exact (ih h).imp_left fun hs => hs.trans (List.suffix_cons c t)

/-- The body of a fence is shorter than the line that opens it. -/
theorem body_length {t : Text} {fence : Fence} {raw : Text}
    (h : (ofLine t).opener = some (fence, raw)) :
    (Text.trimStart (fence.argument (raw.drop (1 + fence.name.length))).2).length < t.length := by
  have hraw := (cut_opener h).1.length_le
  have hpos := List.length_pos_iff.2 (cut_opener h).2
  have hbody := fence.argument_length (raw.drop (1 + fence.name.length))
  have htrim := Text.trimStart_length (fence.argument (raw.drop (1 + fence.name.length))).2
  rw [List.length_drop] at hbody
  omega

end Segments

/-! ## Tokens of a line -/

/-- The kind of a text without block commands. -/
def Token.Kind.ofText (t : Text) : Token.Kind :=
  match QuoteLine.read? t, TableLine.separator? t, TableLine.cells? t, ListLine.read? t with
  | some quoted, _, _, _ => .quote quoted.indent quoted.text
  | none, some alignments, _, _ => .tableSeparator alignments
  | none, none, some cells, _ => .tableRow cells
  | none, none, none, some item => .listItem item.marker item.indent (Text.trimEnd item.text)
  | none, none, none, none =>
    let trimmed := Text.trimStart t
    .text (Text.bytes t - Text.bytes trimmed) (Text.trimEnd trimmed)

/-- The kind of a block command that stands `column` bytes into its line. -/
def Token.Kind.ofCommand (column : Nat) (command : CommandText) : Token.Kind :=
  if BlockCommand.ofName? command.name = some .listItem then
    .listItem .bullet column (Text.trim command.rest)
  else .command command.name (Text.trim command.rest)

namespace Token

def ofText (line : Nat) (t : Text) : List Token :=
  if Text.isBlank t then [] else [⟨line, .ofText t, t⟩]

/-- The tokens of the commands of a line, the first of which stands `column` bytes into it. -/
def ofCommands (line : Nat) : Nat → List CommandText → List Token
  | _, [] => []
  | column, command :: rest =>
    ⟨line, .ofCommand column command, command.raw⟩ ::
      ofCommands line (column + Text.bytes command.raw) rest

/-- The tokens of a text and the fence that it leaves open. -/
def scan (line : Nat) (fence : Option Fence) (t : Text) : List Token × Option Fence :=
  match fence with
  | some fence =>
    match h : fence.close? t with
    | none => ([⟨line, .fenceBody t, t⟩], some fence)
    | some cut =>
      let body := Text.trimEnd cut.before
      let here := (if Text.isBlank body then [] else [⟨line, .fenceBody body, body⟩]) ++
        [⟨line, .fenceClose fence false, cut.tag⟩]
      let later := scan line none (Text.trimStart cut.after)
      (here ++ later.1, later.2)
  | none =>
    let segments := Segments.ofLine t
    let here := ofText line segments.text ++
      ofCommands line (Text.bytes segments.text) segments.commands
    match _ : segments.opener with
    | none => (here, none)
    | some (fence, raw) =>
      let split := fence.argument (raw.drop (1 + fence.name.length))
      let start : Token := ⟨line, .fenceOpen fence split.1, raw⟩
      if Text.isBlank split.2 then (here ++ [start], some fence)
      else
        let later := scan line (some fence) (Text.trimStart split.2)
        (here ++ start :: later.1, later.2)
termination_by t.length
decreasing_by
  · have := Fence.close?_length h
    have := Text.trimStart_length cut.after
    omega
  · exact Segments.body_length ‹_›

end Token

end DocComment
