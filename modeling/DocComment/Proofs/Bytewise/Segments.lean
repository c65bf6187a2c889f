import DocComment.Line.Token
import DocComment.Proofs.Bytewise.Fence

/-!
# Segments in bytes

A line is cut at its block commands by a cursor that goes over it byte by byte, also within
characters, and jumps over the names that it reads. Every part of the line is cut out between the
positions where the cursor found a command.
-/

set_option autoImplicit false

namespace DocComment

/-! ## Names -/

namespace Command

theorem isNameChar_of_isAlpha {c : Char} (letter : c.isAlpha = true) : isNameChar c = true := by
  simp [isNameChar, Char.isAlphanum, letter]

/-- A character that a name may hold, which neither starts a command nor ends a word. -/
def Dull (c : Char) : Prop := isMark c = false ∧ c ≠ ' ' ∧ c ≠ '\x60'

instance (c : Char) : Decidable (Dull c) := inferInstanceAs (Decidable (_ ∧ _))

theorem dull_of_isNameChar {c : Char} (h : isNameChar c = true) : Dull c := by
  refine ⟨?_, ?_, ?_⟩
  · rw [← Bool.not_eq_true]
    intro mark
    simp only [isMark, Bool.or_eq_true, beq_iff_eq] at mark
    rcases mark with rfl | rfl <;> exact absurd h (by decide)
  · rintro rfl
    exact absurd h (by decide)
  · rintro rfl
    exact absurd h (by decide)

/-- A name is the front of the text that it is read from. -/
theorem name?_spec {t name : Text} (h : name? t = some name) :
    name <+: t ∧ ∀ c ∈ name, Dull c := by
  unfold name? at h
  split at h
  case h_6 c rest _ _ _ _ _ =>
    obtain ⟨letter, same⟩ := Option.ite_none_right_eq_some.1 h
    cases same
    refine ⟨List.cons_prefix_cons.2 ⟨rfl, List.takeWhile_prefix _⟩, List.forall_mem_cons.2 ⟨?_, ?_⟩⟩
    · exact dull_of_isNameChar (isNameChar_of_isAlpha letter)
    · exact fun d mem => dull_of_isNameChar (List.mem_takeWhile_imp mem)
  case h_7 => cases h
  all_goals
    cases h
    refine ⟨by simp, ?_⟩
    simp only [List.forall_mem_cons, List.not_mem_nil, false_implies, implies_true, and_true]
    decide

end Command

theorem Fence.eq_name_of_ofName? {name : Text} {fence : Fence} (h : ofName? name = some fence) :
    name = fence.name := by
  rw [ofName?] at h
  have found := List.find?_some h
  exact (beq_iff_eq.1 found).symm

namespace Segments

/-- The block command or the fence opener whose mark is `c`. -/
def commandAt? (wordStart inCode : Bool) (c : Char) (t : Text) : Option Text :=
  (if wordStart && !inCode && Command.isMark c then Command.name? t else none).filter fun name =>
    (BlockCommand.ofName? name).isSome || (Fence.ofName? name).isSome

theorem commandAt?_spec {wordStart inCode : Bool} {c : Char} {t name : Text}
    (h : commandAt? wordStart inCode c t = some name) :
    inCode = false ∧ Command.isMark c = true ∧ Command.name? t = some name := by
  obtain ⟨read, -⟩ := Option.filter_eq_some_iff.1 h
  obtain ⟨starts, spelled⟩ := Option.ite_none_right_eq_some.1 read
  simp only [Bool.and_eq_true, Bool.not_eq_true'] at starts
  exact ⟨starts.1.2, starts.2, spelled⟩

theorem commandAt?_of_unmarked {wordStart inCode : Bool} {c : Char} {t : Text}
    (h : Command.isMark c = false) : commandAt? wordStart inCode c t = none := by
  simp [commandAt?, h]

theorem cut_plain {wordStart inCode : Bool} {c : Char} {t : Text}
    (h : commandAt? wordStart inCode c t = none) :
    cut wordStart inCode (c :: t) = (cut (c == ' ') (inCode != (c == '\x60')) t).consChar c := by
  rw [cut]
  split
  next fence opens =>
    obtain ⟨name, read, known⟩ := Option.bind_eq_some_iff.1 opens
    rw [commandAt?, read] at h
    simp [Option.filter, known] at h
  next name _ found =>
    obtain ⟨read, known⟩ := Option.filter_eq_some_iff.1 found
    rw [commandAt?, read] at h
    simp [Option.filter, known] at h
  next => rfl

theorem cut_fence {wordStart inCode : Bool} {c : Char} {t name : Text} {fence : Fence}
    (h : commandAt? wordStart inCode c t = some name) (opens : Fence.ofName? name = some fence) :
    cut wordStart inCode (c :: t) = ⟨[], [], some (fence, c :: t)⟩ := by
  obtain ⟨read, -⟩ := Option.filter_eq_some_iff.1 h
  rw [cut, read]
  simp [opens]

/-- Nothing starts or ends within a run of dull characters. -/
theorem cut_dull {run : Text} (dull : ∀ c ∈ run, Command.Dull c) (inCode : Bool) (t : Text) :
    cut false inCode (run ++ t) =
      { cut false inCode t with text := run ++ (cut false inCode t).text } := by
  induction run with
  | nil => rfl
  | cons c run ih =>
    obtain ⟨⟨unmarked, solid, quote⟩, later⟩ := List.forall_mem_cons.1 dull
    rw [List.cons_append, cut_plain (by simp [commandAt?]), beq_false_of_ne solid,
      beq_false_of_ne quote, Bool.bne_false, ih later]
    rfl

theorem cut_command {wordStart inCode : Bool} {c : Char} {name t : Text}
    (h : commandAt? wordStart inCode c (name ++ t) = some name)
    (closed : Fence.ofName? name = none) :
    cut wordStart inCode (c :: (name ++ t)) =
      ⟨[], ⟨name, c :: name ++ (cut false false t).text⟩ :: (cut false false t).commands,
        (cut false false t).opener⟩ := by
  have dull := (Command.name?_spec (commandAt?_spec h).2.2).2
  obtain ⟨read, known⟩ := Option.filter_eq_some_iff.1 h
  rw [cut, read]
  simp only [closed, Option.isSome_none, Bool.or_false] at known
  simp [closed, Option.filter, known, cut_dull dull, consCommand]

/-- The parts of a line that start with a command, the fence opener included. -/
def commandTexts (s : Segments) : List CommandText :=
  s.commands ++ (s.opener.map fun opener => ⟨opener.1.name, opener.2⟩).toList

end Segments

namespace Bytewise

def punctuation : List Text := ["f[".toList, "f]".toList, "f$".toList]

/-- The command name at the front of a text. -/
def name? (t : Text) : Option (Option Text) :=
  match punctuation.find? (·.isPrefixOf t) with
  | some name => some (some name)
  | none =>
    if t.head?.any fun c => c == '{' || c == '}' then (Text.takeBytes? 1 t).map some
    else
      let length := ((Text.utf8 t).takeWhile (Text.onByte Command.isNameChar)).length
      if length = 0 then some none
      else do
        let first ← (Text.utf8 t).head?
        if Text.onByte Char.isAlpha first then (Text.takeBytes? length t).map some else some none

theorem ascii_isNameChar : Text.Ascii Command.isNameChar :=
  Text.ascii_or Text.ascii_isAlphanum (Text.ascii_eq (by decide))

theorem name?_eq (t : Text) : name? t = some (Command.name? t) := by
  unfold Command.name?
  split
  case h_4 rest =>
    have brace : Text.takeBytes? 1 ('{' :: rest) = some ['{'] := Text.takeBytes?_bytes ['{'] rest
    simp [name?, punctuation, List.isPrefixOf_cons_cons, brace]
  case h_5 rest =>
    have brace : Text.takeBytes? 1 ('}' :: rest) = some ['}'] := Text.takeBytes?_bytes ['}'] rest
    simp [name?, punctuation, List.isPrefixOf_cons_cons, brace]
  case h_6 c rest open_ close dollar left right =>
    have words : punctuation.find? (·.isPrefixOf (c :: rest)) = none := by
      rw [List.find?_eq_none]
      intro name mem front
      obtain ⟨tail, same⟩ := List.isPrefixOf_iff_prefix.1 front
      simp only [punctuation, List.mem_cons, List.not_mem_nil, or_false] at mem
      rcases mem with rfl | rfl | rfl <;> cases same
      · exact open_ _ rfl rfl
      · exact close _ rfl rfl
      · exact dollar _ rfl rfl
    have braces : ((c :: rest).head?.any fun c => c == '{' || c == '}') = false := by
      simp [beq_false_of_ne left, beq_false_of_ne right]
    have first := Text.map_head? Text.ascii_isAlpha (c :: rest)
    have run := Text.takeBytes?_bytes ((c :: rest).takeWhile Command.isNameChar)
      ((c :: rest).dropWhile Command.isNameChar)
    rw [List.takeWhile_append_dropWhile] at run
    obtain ⟨byte, head, letter⟩ := Option.map_eq_some_iff.1 first
    rw [name?, words, braces, Text.takeWhile_utf8 ascii_isNameChar, Text.length_utf8]
    dsimp only
    rw [run, head, Option.bind_eq_bind, Option.bind_some, letter]
    cases alpha : c.isAlpha with
    | true =>
      have taken := List.takeWhile_cons_of_pos (l := rest) (Command.isNameChar_of_isAlpha alpha)
      simp [taken, c.utf8Size_pos.ne']
    | false => simp
  case h_7 => rfl
  all_goals simp [name?, punctuation, List.isPrefixOf_cons_cons]

/-! ## Parts of a line -/

/-- The text before the commands of a line, or a command with what belongs to it. -/
inductive LinePart where
  | text (raw : Text)
  | command (name rest : Text) (column : Nat) (raw : Text)
  deriving DecidableEq

def part? (line : Text) (start stop : Nat) (name : Option Text) : Option LinePart := do
  let raw ← Text.slice? start stop line
  match name with
  | none => some (.text raw)
  | some name =>
    let rest ← Text.dropBytes? (1 + Text.bytes name) raw
    some (.command name rest start raw)

/-- The block command or the fence opener at a cursor. -/
def command? (inCode : Bool) (cursor : Text.Cursor) : Option (Option Text) :=
  if cursor.previous.all (Text.onByte (· == ' ')) && !inCode &&
      cursor.peek.any (Text.onByte Command.isMark) then do
    let rest ← cursor.rest?
    let name ← name? (← Text.dropBytes? 1 rest)
    some (name.filter fun name =>
      (BlockCommand.ofName? name).isSome || (Fence.ofName? name).isSome)
  else some none

/-- The parts of a line from `start` on, the first of which belongs to the command `name` and has
been read up to the cursor. -/
def partsFrom? (start : Nat) (name : Option Text) (inCode : Bool) (cursor : Text.Cursor) :
    Option (List LinePart) :=
  match _ : cursor.peek with
  | none => (part? cursor.text start (Text.bytes cursor.text) name).map ([·])
  | some byte =>
    if Text.onByte (· == '\x60') byte then partsFrom? start name (!inCode) (cursor.advance 1)
    else do
      match ← command? inCode cursor with
      | none => partsFrom? start name inCode (cursor.advance 1)
      | some found =>
        let here ← part? cursor.text start cursor.position name
        if (Fence.ofName? found).isSome then
          let last ← part? cursor.text cursor.position (Text.bytes cursor.text) (some found)
          some [here, last]
        else
          let later ← partsFrom? cursor.position (some found) inCode
            (cursor.advance (1 + Text.bytes found))
          some (here :: later)
termination_by cursor.left
decreasing_by
  all_goals exact Text.Cursor.left_advance (Text.Cursor.lt_of_peek ‹_›) (by omega)

def parts? (line : Text) : Option (List LinePart) := partsFrom? 0 none false (.start line)

/-! ## What the cursor finds -/

theorem ascii_quote : Text.Ascii (· == '\x60') := Text.ascii_eq (by decide)

theorem quote_of_isMark {c : Char} (marked : Command.isMark c = true) : (c == '\x60') = false := by
  rw [beq_eq_false_iff_ne]
  rintro rfl
  cases marked

theorem command?_between (inCode : Bool) (before : Text) (c : Char) (t : Text) :
    command? inCode (.between before (c :: t)) =
      some (Segments.commandAt? (before.getLast?.all (· == ' ')) inCode c t) := by
  unfold command? Segments.commandAt?
  rw [Text.Cursor.previous_between, Text.Cursor.peek_between,
    Text.all_getLast? (Text.ascii_eq (by decide)), Text.any_head? ascii_isMark, List.head?_cons,
    Option.any_some]
  split
  next starts =>
    have mark : Command.isMark c = true := (Bool.and_eq_true_iff.1 starts).2
    have behind : Text.dropBytes? 1 (c :: t) = some t := by
      simpa [utf8Size_of_isMark mark] using Text.dropBytes?_bytes [c] t
    simp [behind, name?_eq]
  next => rfl

variable {start : Nat} {name : Option Text} {inCode : Bool}

theorem partsFrom?_step {cursor : Text.Cursor} {byte : UInt8} (peek : cursor.peek = some byte)
    (quote : Text.onByte (· == '\x60') byte = false) (plain : command? inCode cursor = some none) :
    partsFrom? start name inCode cursor = partsFrom? start name inCode (cursor.advance 1) := by
  rw [partsFrom?]
  split
  next none => simp [peek] at none
  next other some =>
    obtain rfl : byte = other := by simpa [peek] using some
    simp [quote, plain]

/-- A character that is neither a mark nor a back quote is passed, byte by byte. -/
theorem partsFrom?_pass {c : Char} (unmarked : Command.isMark c = false) (quote : c ≠ '\x60')
    (before t : Text) : partsFrom? start name inCode (.between before (c :: t)) =
      partsFrom? start name inCode (.between (before ++ [c]) t) := by
  have inside : ∀ k ≤ c.utf8Size, partsFrom? start name inCode (.between before (c :: t)) =
      partsFrom? start name inCode ((Text.Cursor.between before (c :: t)).advance k) := by
    intro k le
    induction k with
    | zero => rfl
    | succ k ih =>
      have within : k < (String.utf8EncodeChar c).length := by
        rw [String.length_utf8EncodeChar]
        omega
      obtain ⟨byte, mem, peek⟩ : ∃ byte ∈ String.utf8EncodeChar c,
          ((Text.Cursor.between before (c :: t)).advance k).peek = some byte := by
        refine ⟨_, List.getElem_mem within, ?_⟩
        have position : (Text.utf8 (before ++ c :: t))[Text.bytes before + k]? =
            (String.utf8EncodeChar c)[k]? := by
          rw [Text.utf8_append, List.getElem?_append_right (by simp), Text.length_utf8,
            Nat.add_sub_cancel_left, Text.utf8_cons, List.getElem?_append_left within]
        exact position.trans (List.getElem?_eq_getElem within)
      have quote : Text.onByte (· == '\x60') byte = false := by
        rw [Text.onByte_encode ascii_quote c byte mem]
        exact beq_false_of_ne quote
      have unmarked : Text.onByte Command.isMark byte = false := by
        rw [Text.onByte_encode ascii_isMark c byte mem, unmarked]
      rw [ih (by omega), partsFrom?_step peek quote (by simp [command?, peek, unmarked])]
      rfl
  have behind := Text.Cursor.advance_between before [c] t
  rw [inside _ (Nat.le_refl _), ← behind]
  rfl

/-- At a mark the line is cut if a command stands there. -/
theorem partsFrom?_mark {c : Char} (marked : Command.isMark c = true) (before t : Text) :
    partsFrom? start name inCode (.between before (c :: t)) =
      (Segments.commandAt? (before.getLast?.all (· == ' ')) inCode c t).elim
        (partsFrom? start name inCode (.between (before ++ [c]) t)) (fun found => do
          let here ← part? (before ++ c :: t) start (Text.bytes before) name
          if (Fence.ofName? found).isSome then
            let last ← part? (before ++ c :: t) (Text.bytes before)
              (Text.bytes (before ++ c :: t)) (some found)
            some [here, last]
          else
            let later ← partsFrom? (Text.bytes before) (some found) inCode
              ((Text.Cursor.between before (c :: t)).advance (1 + Text.bytes found))
            some (here :: later)) := by
  obtain ⟨byte, peek, answers⟩ := Text.Cursor.peek_cons before c t
  have quote : Text.onByte (· == '\x60') byte = false :=
    (answers _ ascii_quote).trans (quote_of_isMark marked)
  have behind := Text.Cursor.advance_between before [c] t
  rw [Text.bytes_cons, Text.bytes_nil, utf8Size_of_isMark marked] at behind
  rw [partsFrom?, ← behind]
  split
  next stop => simp [peek] at stop
  next other read =>
    obtain rfl : byte = other := by simpa [peek] using read
    rw [quote, command?_between]
    cases Segments.commandAt? (before.getLast?.all (· == ' ')) inCode c t <;> rfl

/-- A back quote is passed, and commands begin or cease to count. -/
theorem partsFrom?_quote (before t : Text) :
    partsFrom? start name inCode (.between before ('\x60' :: t)) =
      partsFrom? start name (!inCode) (.between (before ++ ['\x60']) t) := by
  have peek := Text.Cursor.peek_between before ('\x60' :: t)
  have behind := Text.Cursor.advance_between before ['\x60'] t
  rw [partsFrom?, ← behind]
  split
  next none => simp [peek] at none
  next byte some =>
    obtain rfl : 96 = byte := Option.some.inj (peek.symm.trans some)
    rfl

/-! ## All parts -/

/-- The part of a line that starts `column` bytes into it. -/
def LinePart.of (column : Nat) (name : Option Text) (raw : Text) : LinePart :=
  match name with
  | none => .text raw
  | some name => .command name (raw.drop (1 + name.length)) column raw

/-- Some commands that stand one behind the other. -/
def LinePart.ofCommands (column : Nat) : List CommandText → List LinePart
  | [] => []
  | first :: rest => .of column (some first.name) first.raw ::
      ofCommands (column + Text.bytes first.raw) rest

/-- The parts of a line of which `front` has been read, as the beginning of a part that starts
`column` bytes into the line. -/
def LinePart.ofSegments (column : Nat) (name : Option Text) (front : Text) (s : Segments) :
    List LinePart :=
  .of column name (front ++ s.text) ::
    ofCommands (column + Text.bytes (front ++ s.text)) s.commandTexts

/-- Whether a part starts with its command. -/
def Headed (name : Option Text) (raw : Text) : Prop :=
  ∀ n ∈ name, ∃ mark, Command.isMark mark = true ∧ mark :: n <+: raw

theorem Headed.append {raw : Text} (h : Headed name raw) (more : Text) :
    Headed name (raw ++ more) := by
  intro n mem
  obtain ⟨mark, marked, front⟩ := h n mem
  exact ⟨mark, marked, front.trans (List.prefix_append raw more)⟩

theorem part?_bytes {raw : Text} (headed : Headed name raw) (before after : Text) :
    part? (before ++ raw ++ after) (Text.bytes before) (Text.bytes (before ++ raw)) name =
      some (.of (Text.bytes before) name raw) := by
  rw [part?, Text.slice?_bytes, Option.bind_eq_bind, Option.bind_some]
  cases name with
  | none => rfl
  | some n =>
    obtain ⟨mark, marked, more, rfl⟩ := headed n rfl
    have behind : Text.dropBytes? (1 + Text.bytes n) (mark :: n ++ more) = some more := by
      have := Text.dropBytes?_bytes (mark :: n) more
      rwa [Text.bytes_cons, utf8Size_of_isMark marked] at this
    dsimp only
    rw [behind, LinePart.of, Nat.add_comm 1 n.length]
    simp

/-- At a fence opener the line ends: the part before it is cut out, and all the rest is the
opener's. -/
theorem partsFrom?_fence {before front : Text} (headed : Headed name front) {c : Char} {t n : Text}
    (found : Segments.commandAt? ((before ++ front).getLast?.all (· == ' ')) inCode c t = some n)
    (opens : (Fence.ofName? n).isSome = true) :
    partsFrom? (Text.bytes before) name inCode (.between (before ++ front) (c :: t)) =
      some [.of (Text.bytes before) name front,
        .of (Text.bytes (before ++ front)) (some n) (c :: t)] := by
  obtain ⟨-, marked, spelled⟩ := Segments.commandAt?_spec found
  have here := part?_bytes headed before (c :: t)
  have headedRest : Headed (some n) (c :: t) := by
    rintro _ ⟨⟩
    exact ⟨c, marked, List.cons_prefix_cons.2 ⟨rfl, (Command.name?_spec spelled).1⟩⟩
  have rest := part?_bytes headedRest (before ++ front) []
  rw [List.append_nil] at rest
  rw [partsFrom?_mark marked, found, Option.elim_some, here, Option.bind_eq_bind, Option.bind_some,
    if_pos opens, rest]
  rfl

/-- At a block command the part before it is cut out, and the cursor jumps behind the name. -/
theorem partsFrom?_command {before front : Text} (headed : Headed name front) {c : Char}
    {n more : Text} (found : Segments.commandAt? ((before ++ front).getLast?.all (· == ' ')) inCode
      c (n ++ more) = some n) (closed : Fence.ofName? n = none) :
    partsFrom? (Text.bytes before) name inCode (.between (before ++ front) (c :: (n ++ more))) =
      (partsFrom? (Text.bytes (before ++ front)) (some n) inCode
        (.between (before ++ front ++ c :: n) more)).map
          (.of (Text.bytes before) name front :: ·) := by
  obtain ⟨-, marked, -⟩ := Segments.commandAt?_spec found
  have here := part?_bytes headed before (c :: (n ++ more))
  have behind := Text.Cursor.advance_between (before ++ front) (c :: n) more
  rw [Text.bytes_cons, utf8Size_of_isMark marked, List.cons_append] at behind
  rw [partsFrom?_mark marked, found, Option.elim_some, here, Option.bind_eq_bind, Option.bind_some,
    closed, ← behind, Option.map_eq_bind]
  rfl

@[simp]
theorem LinePart.ofSegments_consChar (column : Nat) (name : Option Text) (front : Text) (c : Char)
    (s : Segments) :
    ofSegments column name front (s.consChar c) = ofSegments column name (front ++ [c]) s := by
  simp [ofSegments, Segments.consChar, Segments.commandTexts]

/-- The parts that the cursor cuts out are those that reading character by character finds. -/
theorem partsFrom?_eq (inCode : Bool) (before : Text) {front : Text} (headed : Headed name front)
    (rest : Text) :
    partsFrom? (Text.bytes before) name inCode (.between (before ++ front) rest) =
      some (LinePart.ofSegments (Text.bytes before) name front
        (Segments.cut ((before ++ front).getLast?.all (· == ' ')) inCode rest)) := by
  induction size : rest.length using Nat.strong_induction_on
    generalizing before front name inCode rest with
  | h n ih =>
  subst size
  cases rest with
  | nil =>
    have peek := Text.Cursor.peek_between (before ++ front) []
    have part := part?_bytes headed before []
    rw [List.append_nil, Text.bytes_append] at part
    rw [partsFrom?]
    split
    next =>
      simp [part, LinePart.ofSegments, Segments.cut, Segments.nil, Segments.commandTexts,
        LinePart.ofCommands]
    next byte read => simp [peek] at read
  | cons c t =>
    have passed (inCode : Bool) : partsFrom? (Text.bytes before) name inCode
        (.between (before ++ front ++ [c]) t) =
          some (LinePart.ofSegments (Text.bytes before) name front
            ((Segments.cut (c == ' ') inCode t).consChar c)) := by
      have := ih t.length (by simp) inCode before (headed.append [c]) t rfl
      simpa [List.getLast?_append] using this
    by_cases quote : c = '\x60'
    · subst quote
      have unmarked : Command.isMark '\x60' = false := rfl
      rw [partsFrom?_quote, passed, Segments.cut_plain (Segments.commandAt?_of_unmarked unmarked)]
      simp
    cases found : Segments.commandAt? ((before ++ front).getLast?.all (· == ' ')) inCode c t with
    | none =>
      rw [Segments.cut_plain found, beq_false_of_ne quote, Bool.bne_false, ← passed]
      cases marked : Command.isMark c with
      | false => exact partsFrom?_pass marked quote (before ++ front) t
      | true => rw [partsFrom?_mark marked, found, Option.elim_none]
    | some n =>
      obtain ⟨rfl, marked, spelled⟩ := Segments.commandAt?_spec found
      obtain ⟨⟨more, rfl⟩, dull⟩ := Command.name?_spec spelled
      cases opens : Fence.ofName? n with
      | some fence =>
        rw [partsFrom?_fence headed found (by simp [opens]), Segments.cut_fence found opens]
        simp [LinePart.ofSegments, Segments.commandTexts, LinePart.ofCommands,
          Fence.eq_name_of_ofName? opens]
      | none =>
        have headedRest : Headed (some n) (c :: n) := by
          rintro _ ⟨⟩
          exact ⟨c, marked, List.prefix_rfl⟩
        have wordEnd : (before ++ front ++ c :: n).getLast?.all (· == ' ') = false := by
          have solid : ∀ d ∈ c :: n, d ≠ ' ' := by
            refine List.forall_mem_cons.2 ⟨?_, fun d mem => (dull d mem).2.1⟩
            rintro rfl
            cases marked
          rw [List.getLast?_append_cons, List.getLast?_eq_some_getLast (List.cons_ne_nil c n)]
          exact beq_false_of_ne (solid _ (List.getLast_mem _))
        have later := ih more.length (by simp) false (before ++ front) headedRest more rfl
        rw [partsFrom?_command headed found opens, later, wordEnd, Segments.cut_command found opens]
        simp [LinePart.ofSegments, Segments.commandTexts, LinePart.ofCommands]

theorem parts?_eq (line : Text) :
    parts? line = some (LinePart.ofSegments 0 none [] (Segments.ofLine line)) := by
  have headed : Headed none [] := by rintro _ ⟨⟩
  exact partsFrom?_eq false [] headed line

end Bytewise

end DocComment
