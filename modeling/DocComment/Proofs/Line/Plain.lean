import DocComment.Line.Tokenizer
import DocComment.Proofs.Inline.Phrase
import DocComment.Proofs.Text.Size

/-!
# Plain lines

A line without command marks gives one token, and its kind is that of the line as a whole. Here
are the lines that phrases are written on: running text, quotes, list items and table rows.
-/

set_option autoImplicit false

namespace DocComment

/-- Whether a text holds no command mark and no control character. -/
def Text.Unmarked (t : Text) : Prop :=
  ∀ c ∈ t, Command.isMark c = false ∧ Text.isControl c = false

instance (t : Text) : Decidable t.Unmarked := List.decidableBAll _ t

theorem Text.Unmarked.append {a b : Text} (ha : a.Unmarked) (hb : b.Unmarked) :
    Text.Unmarked (a ++ b) := List.forall_mem_append.2 ⟨ha, hb⟩

theorem Text.Unmarked.cons {c : Char} {t : Text}
    (hc : Command.isMark c = false ∧ Text.isControl c = false) (ht : t.Unmarked) :
    Text.Unmarked (c :: t) := List.forall_mem_cons.2 ⟨hc, ht⟩

theorem Phrase.unmarked (p : Phrase) : p.text.Unmarked := by
  intro c hc
  obtain h | rfl := p.chars c hc
  · exact ⟨Text.isMark_of_isAlpha h, Text.isControl_of_isAlpha h⟩
  · decide

theorem ControlCharacter.find?_eq_none {lines : List Text}
    (h : ∀ t ∈ lines, ∀ c ∈ t, Text.isControl c = false) (line : Nat) :
    find? line lines = none := by
  induction lines generalizing line with
  | nil => rfl
  | cons t rest ih =>
    obtain ⟨here, later⟩ := List.forall_mem_cons.1 h
    have none : t.find? (fun c => Text.isControl c && c != '\t') = none :=
      List.find?_eq_none.2 fun c hc => by simp [here c hc]
    rw [find?, none]
    exact ih later (line + 1)

theorem Segments.cut_unmarked {t : Text} (h : t.Unmarked) (wordStart inCode : Bool) :
    cut wordStart inCode t = ⟨t, [], none⟩ := by
  induction t generalizing wordStart inCode with
  | nil => rfl
  | cons c t ih =>
    obtain ⟨here, later⟩ := List.forall_mem_cons.1 h
    simp [cut, here.1, ih later, consChar]

/-- Whether a line is in one piece: it holds no block command and opens no fence. -/
def Text.Uncut (t : Text) : Prop := Segments.ofLine t = ⟨t, [], none⟩

instance (t : Text) : Decidable t.Uncut := inferInstanceAs (Decidable (_ = _))

theorem Text.Unmarked.uncut {t : Text} (h : t.Unmarked) : t.Uncut :=
  Segments.cut_unmarked h true false

namespace Token

/-- The token of a line in one piece. -/
def plain (line : Nat) (t : Text) : Token :=
  if Text.isBlank t then ⟨line, .blank, t⟩ else ⟨line, .ofText t, t⟩

theorem ofLine_uncut {t : Text} (h : t.Uncut) (line : Nat) :
    ofLine line none t = ([plain line t], none) := by
  unfold ofLine plain
  by_cases blank : Text.isBlank t
  · simp [blank]
  · have cut : Segments.ofLine t = ⟨t, [], none⟩ := h
    have tokens : scan line none t = (ofText line t, none) := by
      rw [scan]
      split
      · simp [cut, ofCommands]
      · next opened => simp [cut] at opened
    simp [blank, tokens, ofText]

theorem ofLine_unmarked {t : Text} (h : t.Unmarked) (line : Nat) :
    ofLine line none t = ([plain line t], none) :=
  ofLine_uncut h.uncut line

theorem ofLines_unmarked {t : Text} (h : t.Unmarked) (line : Nat) (rest : List Text) :
    ofLines line none (t :: rest) = plain line t :: ofLines (line + 1) none rest := by
  rw [ofLines, ofLine_unmarked h]
  rfl

end Token

theorem tokenize_unmarked {lines : List Text} (h : ∀ t ∈ lines, t.Unmarked) :
    tokenize lines = .ok (Token.ofLines 0 none lines) := by
  rw [tokenize, ControlCharacter.find?_eq_none fun t mem c hc => (h t mem c hc).2]

/-! ## Lines of phrases -/

namespace PlainLine

/-- A list item: two spaces for each level that it is inside of, a marker and its text. -/
def item (depth : Nat) (ordered : Bool) (body : Phrase) : Text :=
  List.replicate (2 * depth) ' ' ++ (if ordered then "1. ".toList else "- ".toList) ++ body.text

/-- Pieces between pipes. -/
def framed (pieces : List Text) : Text := '|' :: pieces.flatMap (· ++ ['|'])

/-- A table row. -/
def row (cells : List Phrase) : Text := framed (cells.map fun c => ' ' :: c.text ++ [' '])

def dashes : Alignment → Text
  | .left => "---".toList
  | .center => ":---:".toList
  | .right => "---:".toList

/-- The line under the header of a table. -/
def separator (alignments : List Alignment) : Text :=
  framed (alignments.map fun a => ' ' :: dashes a ++ [' '])

/-- A line of a quote. -/
def quoted (t : Text) : Text := '>' :: ' ' :: t

end PlainLine

theorem Phrase.head (p : Phrase) : ∃ c rest, p.text = c :: rest ∧ c.isAlpha := by
  obtain ⟨c, rest, hw, hc⟩ := p.first.head
  exact ⟨c, rest ++ p.tail.text, by simp [text, hw], hc⟩

theorem Phrase.not_mem (p : Phrase) {c : Char} (letter : c.isAlpha = false) (space : c ≠ ' ') :
    c ∉ p.text := by
  intro mem
  obtain h | h := p.chars c mem
  · exact Text.ne_of_isAlpha h letter rfl
  · exact space h

/-! ## Classes of lines -/

theorem Text.isDecimalDigit_of_isAlpha {c : Char} (h : c.isAlpha) : isDecimalDigit c = false := by
  have bounds := isAlpha_range h
  have zeros : ∀ first ∈ digitZeros, first = 0x30 ∨ 0x660 ≤ first := by decide
  refine List.any_eq_false.2 fun first mem => ?_
  have := zeros first mem
  simp only [Bool.and_eq_true, decide_eq_true_eq]
  omega

theorem QuoteLine.read?_of_ne {t rest : Text} {c : Char} (h : t.dropWhile (· == ' ') = c :: rest)
    (hc : c ≠ '>') : read? t = none := by
  unfold read?
  split <;> simp_all [eq_comm]

namespace TableLine

theorem separator?_of_not_mem {t : Text} (h : '|' ∉ t) : separator? t = none := by
  have trimmed : '|' ∉ Text.trim t := fun mem => h ((Text.trim_sublist t).subset mem)
  simp [separator?, trimmed]

theorem cells?_of_not_mem {t : Text} (h : '|' ∉ t) : cells? t = none := by
  unfold cells?
  split
  · next inner trimmed =>
    exact absurd ((Text.trim_sublist t).subset (trimmed ▸ List.mem_cons_self)) h
  · rfl

theorem pieces_eq_splitOn {t : Text} (h : '\\' ∉ t) : pieces t = t.splitOn '|' := by
  induction t with
  | nil => rfl
  | cons c t ih =>
    obtain ⟨hc, ht⟩ := not_or.1 (List.mem_cons.not.1 h)
    rw [pieces, ih ht]
    · simp [List.splitOn, List.splitOnP_cons_eq_if_modifyHead]
    · exact fun rest escape => absurd escape.symm hc

theorem framed_eq {pieces : List Text} (h : pieces ≠ []) :
    PlainLine.framed pieces = '|' :: (['|'].intercalate pieces ++ ['|']) := by
  unfold PlainLine.framed
  congr 1
  induction pieces with
  | nil => exact absurd rfl h
  | cons p rest ih =>
    cases rest with
    | nil => simp
    | cons q rest =>
      rw [List.flatMap_cons, ih (List.cons_ne_nil _ _), List.intercalate_cons_cons]
      simp

theorem framed_tight {pieces : List Text} (h : pieces ≠ []) : (PlainLine.framed pieces).Tight := by
  rw [framed_eq h]
  exact ⟨⟨'|', _, rfl, by decide⟩, '|' :: ['|'].intercalate pieces, '|', rfl, by decide⟩

theorem separator?_framed {pieces : List Text} (h : pieces ≠ []) (bare : ∀ p ∈ pieces, '|' ∉ p) :
    separator? (PlainLine.framed pieces) = pieces.mapM alignment? := by
  have front : Text.dropPrefix? ['|'] (PlainLine.framed pieces) =
      some (['|'].intercalate pieces ++ ['|']) := Text.dropPrefix?_eq_some.2 (framed_eq h)
  have back : Text.dropSuffix? ['|'] (['|'].intercalate pieces ++ ['|']) =
      some (['|'].intercalate pieces) := by simp [Text.dropSuffix?, Text.dropPrefix?]
  have pipe : (PlainLine.framed pieces).contains '|' = true := by simp [PlainLine.framed]
  unfold separator?
  dsimp only
  rw [(framed_tight h).trim, if_pos pipe, front, Option.getD_some, back, Option.getD_some,
    List.splitOn_intercalate '|' bare h]

theorem alignment?_phrase (p : Phrase) : alignment? (' ' :: p.text ++ [' ']) = none := by
  obtain ⟨c, rest, hp, hc⟩ := p.head
  have colon := p.not_mem (c := ':') rfl (by decide)
  have kept : Text.trimMatches ':' p.text = p.text := by
    have front : p.text.dropWhile (· == ':') = p.text := by
      simp [hp, Text.ne_of_isAlpha hc]
    have back : p.text.reverse.dropWhile (· == ':') = p.text.reverse := by
      cases h : p.text.reverse with
      | nil => rfl
      | cons d later =>
        have : d ∈ p.text := List.mem_reverse.1 (h ▸ List.mem_cons_self)
        have : d ≠ ':' := by rintro rfl; exact colon this
        simp [this]
    rw [Text.trimMatches, front, back, List.reverse_reverse]
  rw [alignment?, p.tight.trim_spaced, kept]
  simp [hp, Text.ne_of_isAlpha hc]

theorem alignment?_dashes (a : Alignment) :
    alignment? (' ' :: PlainLine.dashes a ++ [' ']) = some a := by
  cases a <;> decide

theorem mapM_alignment? (alignments : List Alignment) :
    (alignments.map fun a => ' ' :: PlainLine.dashes a ++ [' ']).mapM alignment? =
      some alignments := by
  induction alignments with
  | nil => rfl
  | cons a rest ih =>
    rw [List.map_cons, List.mapM_cons, alignment?_dashes, ih]
    rfl

theorem cells?_framed {pieces : List Text} (h : pieces ≠ [])
    (bare : ∀ p ∈ pieces, '|' ∉ p ∧ '\\' ∉ p) : cells? (PlainLine.framed pieces) = some pieces := by
  have noEscape : '\\' ∉ ['|'].intercalate pieces := by
    intro mem
    have framed : '\\' ∈ PlainLine.framed pieces := by
      rw [framed_eq h]
      simp [mem]
    obtain ⟨p, hp, escape⟩ : ∃ p ∈ pieces, '\\' ∈ p := by
      simpa [PlainLine.framed] using framed
    exact (bare p hp).2 escape
  have back : Text.dropSuffix? ['|'] (['|'].intercalate pieces ++ ['|']) =
      some (['|'].intercalate pieces) := by simp [Text.dropSuffix?, Text.dropPrefix?]
  have last : (['|'].intercalate pieces).getLast? ≠ some '\\' :=
    fun last => noEscape (List.mem_of_getLast? last)
  unfold cells?
  rw [(framed_tight h).trim, framed_eq h]
  simp only [dropLastPipe, back, if_neg last]
  rw [pieces_eq_splitOn noEscape, List.splitOn_intercalate '|' (fun p hp => (bare p hp).1) h]
  simp

end TableLine

namespace ListLine

theorem read?_of_start {t rest : Text} {c : Char} (start : t.dropWhile (· == ' ') = c :: rest)
    (digit : Text.isDecimalDigit c = false) (bullet : c ∉ ['-', '*', '+']) : read? t = none := by
  have number : number? (c :: rest) = none := by simp [number?, digit]
  have item : item? (c :: rest) = none := by
    unfold item?
    split
    · next h => exact absurd (by simp [(List.cons.inj h).1]) bullet
    · next h => exact absurd (by simp [(List.cons.inj h).1]) bullet
    · next h => exact absurd (by simp [(List.cons.inj h).1]) bullet
    · next h => exact absurd (by simp [(List.cons.inj h).1]) bullet
    · rw [number]
  rw [read?, start, item]
  rfl

theorem read?_phrase (p : Phrase) : read? p.text = none := by
  obtain ⟨c, rest, hp, hc⟩ := p.head
  have start : p.text.dropWhile (· == ' ') = c :: rest := by
    simp [hp, Text.ne_of_isAlpha hc]
  refine read?_of_start start (Text.isDecimalDigit_of_isAlpha hc) ?_
  simp [Text.ne_of_isAlpha hc]

theorem textAfter?_phrase (p : Phrase) : textAfter? (' ' :: p.text) = some p.text := by
  obtain ⟨c, rest, hp, hc⟩ := p.head
  have start : p.text.dropWhile (· == ' ') = p.text := by simp [hp, Text.ne_of_isAlpha hc]
  have feed : p.text.contains '\n' = false := by
    simpa using p.not_mem (c := '\n') rfl (by decide)
  rw [textAfter?, start, feed]
  rfl

theorem read?_item (depth : Nat) (ordered : Bool) (body : Phrase) :
    ∃ marker, marker.isOrdered = ordered ∧
      read? (PlainLine.item depth ordered body) = some ⟨marker, 2 * depth, body.text⟩ := by
  have indent {c : Char} (hc : c ≠ ' ') (rest : Text) :
      Text.indent (List.replicate (2 * depth) ' ' ++ c :: rest) = 2 * depth ∧
        (List.replicate (2 * depth) ' ' ++ c :: rest).dropWhile (· == ' ') = c :: rest := by
    have spaces : ∀ d ∈ List.replicate (2 * depth) ' ', (d == ' ') = true := by simp
    simp [Text.indent, List.takeWhile_append_of_pos spaces, List.dropWhile_append_of_pos spaces, hc]
  cases ordered with
  | false =>
    obtain ⟨width, start⟩ := indent (c := '-') (by decide) (' ' :: body.text)
    have line : PlainLine.item depth false body =
        List.replicate (2 * depth) ' ' ++ '-' :: ' ' :: body.text := by simp [PlainLine.item]
    refine ⟨.bullet, rfl, ?_⟩
    rw [read?, line, start, width, item?, textAfter?_phrase]
    · rfl
    · simp
  | true =>
    obtain ⟨width, start⟩ := indent (c := '1') (by decide) ('.' :: ' ' :: body.text)
    have line : PlainLine.item depth true body =
        List.replicate (2 * depth) ' ' ++ '1' :: '.' :: ' ' :: body.text := by simp [PlainLine.item]
    have number : number? ('1' :: '.' :: ' ' :: body.text) =
        some (.numbered (some 1), ' ' :: body.text) := rfl
    refine ⟨.numbered (some 1), rfl, ?_⟩
    rw [read?, line, start, width, item?, number]
    · dsimp only
      rw [textAfter?_phrase]
      rfl
    all_goals simp

end ListLine

namespace Token.Kind

theorem ofText_phrase (p : Phrase) : ofText p.text = .text 0 p.text := by
  obtain ⟨c, rest, hp, hc⟩ := p.head
  have start : p.text.dropWhile (· == ' ') = c :: rest := by simp [hp, Text.ne_of_isAlpha hc]
  have pipe := p.not_mem (c := '|') rfl (by decide)
  rw [ofText, QuoteLine.read?_of_ne start (Text.ne_of_isAlpha hc rfl),
    TableLine.separator?_of_not_mem pipe, TableLine.cells?_of_not_mem pipe,
    ListLine.read?_phrase]
  simp [p.tight.trimStart, p.tight.trimEnd]

theorem ofText_item (depth : Nat) (ordered : Bool) (body : Phrase) :
    ∃ marker, marker.isOrdered = ordered ∧
      ofText (PlainLine.item depth ordered body) = .listItem marker (2 * depth) body.text := by
  obtain ⟨marker, same, read⟩ := ListLine.read?_item depth ordered body
  refine ⟨marker, same, ?_⟩
  have pipe : '|' ∉ PlainLine.item depth ordered body := by
    have := body.not_mem (c := '|') rfl (by decide)
    cases ordered <;> simp [PlainLine.item, this]
  have quote : QuoteLine.read? (PlainLine.item depth ordered body) = none := by
    have spaces : ∀ d ∈ List.replicate (2 * depth) ' ', (d == ' ') = true := by simp
    cases ordered with
    | false =>
      have left : (PlainLine.item depth false body).dropWhile (· == ' ') =
          '-' :: ' ' :: body.text := by
        simp [PlainLine.item, List.dropWhile_append_of_pos spaces]
      exact QuoteLine.read?_of_ne left (by decide)
    | true =>
      have left : (PlainLine.item depth true body).dropWhile (· == ' ') =
          '1' :: '.' :: ' ' :: body.text := by
        simp [PlainLine.item, List.dropWhile_append_of_pos spaces]
      exact QuoteLine.read?_of_ne left (by decide)
  rw [ofText, quote, TableLine.separator?_of_not_mem pipe, TableLine.cells?_of_not_mem pipe, read]
  simp [body.tight.trimEnd]

theorem ofText_row {cells : List Phrase} (h : cells ≠ []) :
    ofText (PlainLine.row cells) = .tableRow (cells.map fun c => ' ' :: c.text ++ [' ']) := by
  have pieces : cells.map (fun c => ' ' :: c.text ++ [' ']) ≠ [] := by simpa using h
  have bare : ∀ p ∈ cells.map (fun c => ' ' :: c.text ++ [' ']), '|' ∉ p ∧ '\\' ∉ p := by
    intro p hp
    obtain ⟨c, -, rfl⟩ := List.mem_map.1 hp
    have := c.not_mem (c := '|') rfl (by decide)
    have := c.not_mem (c := '\\') rfl (by decide)
    simp_all
  have noSeparator : TableLine.separator? (PlainLine.row cells) = none := by
    rw [PlainLine.row, TableLine.separator?_framed pieces fun p hp => (bare p hp).1]
    obtain ⟨c, rest, rfl⟩ := List.exists_cons_of_ne_nil h
    rw [List.map_cons, List.mapM_cons, TableLine.alignment?_phrase]
    rfl
  rw [ofText, QuoteLine.read?_of_ne (c := '|') rfl (by decide), noSeparator, PlainLine.row,
    TableLine.cells?_framed pieces bare]

theorem ofText_separator {alignments : List Alignment} (h : alignments ≠ []) :
    ofText (PlainLine.separator alignments) = .tableSeparator alignments := by
  have pieces : alignments.map (fun a => ' ' :: PlainLine.dashes a ++ [' ']) ≠ [] := by
    simpa using h
  have bare : ∀ p ∈ alignments.map (fun a => ' ' :: PlainLine.dashes a ++ [' ']), '|' ∉ p := by
    intro p hp
    obtain ⟨a, -, rfl⟩ := List.mem_map.1 hp
    cases a <;> decide
  have read : TableLine.separator? (PlainLine.separator alignments) = some alignments := by
    rw [PlainLine.separator, TableLine.separator?_framed pieces bare]
    exact TableLine.mapM_alignment? alignments
  rw [ofText, QuoteLine.read?_of_ne (c := '|') rfl (by decide), read]

end Token.Kind

end DocComment
