import DocComment.Proofs.Bytewise.Token
import DocComment.Proofs.Line.TokenSize

/-!
# Where a line is cut

Whether a command stands at a byte of a line can be said from what is around that byte. The cursor
that cuts a line jumps over the names that it reads and stops at the first fence opener; still it
cuts at all commands up to that opener, and nowhere else.
-/

set_option autoImplicit false

namespace DocComment

namespace Text

/-- A cut is where a character begins, and there is one text in front of it. -/
theorem front_eq_of_bytes {a b rest later : Text} (same : a ++ rest = b ++ later)
    (size : bytes a = bytes b) : a = b ∧ rest = later := by
  have cut := dropBytes?_bytes a rest
  rw [same, size, dropBytes?_bytes, Option.some_inj] at cut
  subst cut
  exact ⟨List.append_cancel_right same, rfl⟩

/-- Between a character and the next one nothing begins. -/
theorem front_of_bytes {a b rest later : Text} {c : Char} (same : a ++ c :: rest = b ++ later)
    (le : bytes a ≤ bytes b) : b = a ∨ bytes (a ++ [c]) ≤ bytes b := by
  rcases List.append_eq_append_iff.1 same with ⟨x, rfl, inside⟩ | ⟨x, rfl, -⟩
  · cases x with
    | nil => exact .inl (List.append_nil a)
    | cons d x =>
      obtain ⟨rfl, -⟩ := List.cons.inj inside
      exact .inr (by simp)
  · cases x with
    | nil => exact .inl (List.append_nil b).symm
    | cons d x =>
      have := d.utf8Size_pos
      simp only [bytes_append, bytes_cons] at le
      omega

theorem countP_utf8 {p : Char → Bool} (ascii : Ascii p) (t : Text) :
    (utf8 t).countP (onByte p) = t.countP p := by
  induction t with
  | nil => rfl
  | cons c t ih =>
    have here := onByte_encode ascii c
    rw [utf8_cons, List.countP_append, ih, List.countP_cons, Nat.add_comm]
    congr 1
    by_cases accepted : p c = true
    · have single := encode_ascii (ascii c accepted)
      rw [single] at here ⊢
      simp [here, accepted]
    · have none : ∀ byte ∈ String.utf8EncodeChar c, ¬onByte p byte = true := by
        intro byte mem
        rwa [here byte mem]
      rw [List.countP_eq_zero.2 none, if_neg accepted]

end Text

/-! ## Commands at bytes -/

/-- A block command or a fence opener at a byte of a line. Its mark starts the line or follows a
space, and does not stand between back quotes. -/
structure CommandAt (line : Text) (position : Nat) (name : Text) : Prop where
  mark : ∃ byte, (Text.utf8 line)[position]? = some byte ∧
    Text.onByte Command.isMark byte = true
  wordStart : position = 0 ∨ ∃ byte, (Text.utf8 line)[position - 1]? = some byte ∧
    Text.onByte (· == ' ') byte = true
  outside : Even (((Text.utf8 line).take position).countP (Text.onByte (· == '\x60')))
  read : ∃ rest, Text.dropBytes? (position + 1) line = some rest ∧ Command.name? rest = some name
  known : (BlockCommand.ofName? name).isSome = true ∨ (Fence.ofName? name).isSome = true

namespace Segments

/-- Whether back quotes are open behind a text. -/
def inCode (before : Text) : Bool := before.countP (· == '\x60') % 2 == 1

/-- The command whose mark is `c`, behind the text in front of it. -/
def commandBehind? (before : Text) (c : Char) (t : Text) : Option Text :=
  commandAt? (before.getLast?.all (· == ' ')) (inCode before) c t

theorem inCode_concat (before : Text) (c : Char) :
    inCode (before ++ [c]) = (inCode before != (c == '\x60')) := by
  rw [inCode, inCode, List.countP_append, List.countP_singleton]
  rcases Nat.mod_two_eq_zero_or_one (before.countP (· == '\x60')) with even | odd
  · cases c == '\x60' <;> simp [Nat.add_mod, even]
  · cases c == '\x60' <;> simp [Nat.add_mod, odd]

theorem commandBehind?_eq_some {before t name : Text} {c : Char} :
    commandBehind? before c t = some name ↔ Command.isMark c = true ∧
      before.getLast?.all (· == ' ') = true ∧ Even (before.countP (· == '\x60')) ∧
      Command.name? t = some name ∧
      ((BlockCommand.ofName? name).isSome = true ∨ (Fence.ofName? name).isSome = true) := by
  have outside : inCode before = false ↔ Even (before.countP (· == '\x60')) := by
    rw [inCode, Nat.even_iff]
    rcases Nat.mod_two_eq_zero_or_one (before.countP (· == '\x60')) with even | odd
    · simp [even]
    · simp [odd]
  rw [commandBehind?, commandAt?, Option.filter_eq_some_iff, Option.ite_none_right_eq_some,
    ← outside]
  simp only [Bool.and_eq_true, Bool.not_eq_true', Bool.or_eq_true]
  tauto

end Segments

theorem utf8_wordStart (before rest : Text) : (Text.bytes before = 0 ∨
    ∃ byte, (Text.utf8 (before ++ rest))[Text.bytes before - 1]? = some byte ∧
      Text.onByte (· == ' ') byte = true) ↔ before.getLast?.all (· == ' ') = true := by
  rcases List.eq_nil_or_concat' before with rfl | ⟨front, d, rfl⟩
  · simp
  · have size : Text.bytes (front ++ [d]) ≠ 0 := by simp [d.utf8Size_pos.ne']
    have last : (Text.utf8 (front ++ [d] ++ rest))[Text.bytes (front ++ [d]) - 1]? =
        (Text.utf8 (front ++ [d])).getLast? := by
      rw [Text.utf8_append, List.getElem?_append_left (by rw [Text.length_utf8]; omega),
        List.getLast?_eq_getElem?, Text.length_utf8]
    have spaced := Text.map_getLast? (Text.ascii_eq (c := ' ') (by decide)) (front ++ [d])
    rw [last, List.getLast?_concat]
    rw [List.getLast?_concat] at spaced
    obtain ⟨byte, found, same⟩ := Option.map_eq_some_iff.1 spaced
    simp only [size, found, same, false_or, Option.some.injEq, exists_eq_left', Option.all_some]

/-- At a byte or at a character, the same commands stand there. -/
theorem commandAt_iff {line name : Text} {position : Nat} : CommandAt line position name ↔
    ∃ before c t, line = before ++ c :: t ∧ Text.bytes before = position ∧
      Segments.commandBehind? before c t = some name := by
  have front (before rest : Text) :
      (Text.utf8 (before ++ rest)).take (Text.bytes before) = Text.utf8 before := by
    rw [Text.utf8_append, ← Text.length_utf8 before, List.take_left]
  have quotes (before rest : Text) :
      ((Text.utf8 (before ++ rest)).take (Text.bytes before)).countP (Text.onByte (· == '\x60')) =
        before.countP (· == '\x60') := by
    rw [front, Text.countP_utf8 Bytewise.ascii_quote]
  have behind (before : Text) {c : Char} (mark : Command.isMark c = true) (t : Text) :
      Text.dropBytes? (Text.bytes before + 1) (before ++ c :: t) = some t := by
    simpa [Bytewise.utf8Size_of_isMark mark] using Text.dropBytes?_bytes (before ++ [c]) t
  constructor
  · rintro ⟨⟨byte, peek, marked⟩, wordStart, outside, ⟨rest, cut, read⟩, known⟩
    obtain ⟨before, c, t, rfl, rfl, mark⟩ :=
      Text.exists_char_of_onByte Bytewise.ascii_isMark peek marked
    obtain rfl : t = rest := Option.some.inj ((behind before mark t).symm.trans cut)
    rw [quotes] at outside
    exact ⟨before, c, t, rfl, rfl, Segments.commandBehind?_eq_some.2
      ⟨mark, (utf8_wordStart before _).1 wordStart, outside, read, known⟩⟩
  · rintro ⟨before, c, t, rfl, rfl, found⟩
    obtain ⟨mark, wordStart, outside, read, known⟩ := Segments.commandBehind?_eq_some.1 found
    obtain ⟨byte, peek, answers⟩ := Text.Cursor.peek_cons before c t
    exact {
      mark := ⟨byte, peek, (answers _ Bytewise.ascii_isMark).trans mark⟩
      wordStart := (utf8_wordStart before _).2 wordStart
      outside := by rwa [quotes]
      read := ⟨t, behind before mark t, read⟩
      known := known }

theorem commandAt_bytes {before t name : Text} {c : Char} :
    CommandAt (before ++ c :: t) (Text.bytes before) name ↔
      Segments.commandBehind? before c t = some name := by
  rw [commandAt_iff]
  constructor
  · rintro ⟨other, d, u, same, size, found⟩
    obtain ⟨rfl, rest⟩ := Text.front_eq_of_bytes same size.symm
    cases rest
    exact found
  · exact fun found => ⟨before, c, t, rfl, rfl, found⟩

/-- Behind a byte where a character begins, commands stand there or not before the next
character. -/
theorem CommandAt.here_or_later {before t name : Text} {c : Char} {position : Nat}
    (h : CommandAt (before ++ c :: t) position name) (le : Text.bytes before ≤ position) :
    position = Text.bytes before ∨ Text.bytes (before ++ [c]) ≤ position := by
  obtain ⟨other, d, u, same, rfl, -⟩ := commandAt_iff.1 h
  exact (Text.front_of_bytes same le).imp_left (congrArg Text.bytes)

/-! ## Lists of commands -/

/-- The commands of a line from `start` on, in order, up to the first that opens a fence. -/
structure Listed (line : Text) (start : Nat) (commands : List (Nat × Text)) : Prop where
  sorted : commands.Pairwise fun a b => a.1 < b.1
  complete : ∀ position name, (position, name) ∈ commands ↔ start ≤ position ∧
    CommandAt line position name ∧ ∀ earlier other, start ≤ earlier → earlier < position →
      CommandAt line earlier other → Fence.ofName? other = none

namespace Listed

theorem nil (line : Text) : Listed line (Text.bytes line) [] := by
  refine ⟨List.Pairwise.nil, fun position name => ?_⟩
  simp only [List.not_mem_nil, false_iff, not_and]
  intro behind stands
  obtain ⟨before, c, t, rfl, rfl, -⟩ := commandAt_iff.1 stands
  have := c.utf8Size_pos
  simp only [Text.bytes_append, Text.bytes_cons] at behind
  omega

variable {before t : Text} {c : Char} {commands : List (Nat × Text)}

theorem lt_next (before : Text) (c : Char) : Text.bytes before < Text.bytes (before ++ [c]) := by
  simp [c.utf8Size_pos]

theorem pass (none : Segments.commandBehind? before c t = none)
    (h : Listed (before ++ c :: t) (Text.bytes (before ++ [c])) commands) :
    Listed (before ++ c :: t) (Text.bytes before) commands := by
  have next := lt_next before c
  have later {position : Nat} {name : Text} (stands : CommandAt (before ++ c :: t) position name)
      (le : Text.bytes before ≤ position) : Text.bytes (before ++ [c]) ≤ position := by
    refine (stands.here_or_later le).resolve_left ?_
    rintro rfl
    rw [commandAt_bytes, none] at stands
    cases stands
  refine ⟨h.sorted, fun position name => (h.complete position name).trans ?_⟩
  constructor
  · rintro ⟨le, stands, first⟩
    exact ⟨by omega, stands, fun earlier other le lt there =>
      first earlier other (later there le) lt there⟩
  · rintro ⟨le, stands, first⟩
    exact ⟨later stands le, stands, fun earlier other le => first earlier other (by omega)⟩

/-- Only one name is read at a byte. -/
theorem name_eq {name other : Text} (found : Segments.commandBehind? before c t = some name)
    (h : CommandAt (before ++ c :: t) (Text.bytes before) other) : other = name := by
  rw [commandAt_bytes, found] at h
  exact (Option.some.inj h).symm

theorem command {name : Text} (found : Segments.commandBehind? before c t = some name)
    (closed : Fence.ofName? name = none)
    (h : Listed (before ++ c :: t) (Text.bytes (before ++ [c])) commands) :
    Listed (before ++ c :: t) (Text.bytes before) ((Text.bytes before, name) :: commands) := by
  have next := lt_next before c
  have later {position : Nat} {other : Text} (mem : (position, other) ∈ commands) :
      Text.bytes (before ++ [c]) ≤ position := ((h.complete position other).1 mem).1
  refine ⟨List.pairwise_cons.2 ⟨fun place mem => next.trans_le (later mem), h.sorted⟩,
    fun position other => ?_⟩
  rw [List.mem_cons, Prod.mk.injEq]
  constructor
  · rintro (⟨rfl, rfl⟩ | mem)
    · refine ⟨Nat.le_refl _, commandAt_bytes.2 found, fun earlier _ le lt => ?_⟩
      exact absurd lt (Nat.not_lt.2 le)
    · obtain ⟨le, stands, first⟩ := (h.complete position other).1 mem
      refine ⟨by omega, stands, fun earlier opener le lt there => ?_⟩
      rcases there.here_or_later le with rfl | le
      · rw [name_eq found there, closed]
      · exact first earlier opener le lt there
  · rintro ⟨le, stands, first⟩
    rcases stands.here_or_later le with rfl | le
    · exact .inl ⟨rfl, name_eq found stands⟩
    · exact .inr ((h.complete position other).2
        ⟨le, stands, fun earlier opener le => first earlier opener (by omega)⟩)

theorem opener {name : Text} (found : Segments.commandBehind? before c t = some name)
    (opens : (Fence.ofName? name).isSome = true) :
    Listed (before ++ c :: t) (Text.bytes before) [(Text.bytes before, name)] := by
  have next := lt_next before c
  have here : CommandAt (before ++ c :: t) (Text.bytes before) name := commandAt_bytes.2 found
  refine ⟨List.pairwise_singleton _ _, fun position other => ?_⟩
  rw [List.mem_singleton, Prod.mk.injEq]
  constructor
  · rintro ⟨rfl, rfl⟩
    exact ⟨Nat.le_refl _, here, fun earlier _ le lt => absurd lt (Nat.not_lt.2 le)⟩
  · rintro ⟨le, stands, first⟩
    rcases stands.here_or_later le with rfl | le
    · exact ⟨rfl, name_eq found stands⟩
    · rw [first _ name (Nat.le_refl _) (by omega) here] at opens
      cases opens

end Listed

/-! ## The commands of a cut line -/

/-- Where some commands stand that follow each other. -/
def CommandText.places (column : Nat) : List CommandText → List (Nat × Text)
  | [] => []
  | command :: rest => (column, command.name) :: places (column + Text.bytes command.raw) rest

namespace Segments

theorem cut_block {wordStart inCode : Bool} {c : Char} {t name : Text}
    (h : commandAt? wordStart inCode c t = some name) (closed : Fence.ofName? name = none) :
    cut wordStart inCode (c :: t) = (cut false false t).consCommand name c := by
  obtain ⟨read, known⟩ := Option.filter_eq_some_iff.1 h
  rw [cut, read]
  simp only [closed, Option.isSome_none, Bool.or_false] at known
  simp [closed, Option.filter, known]

/-- Reading character by character finds all commands. -/
theorem cut_listed (before rest : Text) :
    let s := cut (before.getLast?.all (· == ' ')) (inCode before) rest
    Listed (before ++ rest) (Text.bytes before)
      (CommandText.places (Text.bytes before + Text.bytes s.text) s.commandTexts) := by
  induction rest generalizing before with
  | nil => simpa [cut, Segments.nil, commandTexts, CommandText.places] using Listed.nil before
  | cons c t ih =>
    have later := ih (before ++ [c])
    rw [List.getLast?_concat, Option.all_some, inCode_concat, List.append_assoc,
      List.singleton_append] at later
    dsimp only
    cases found : commandBehind? before c t with
    | none =>
      rw [cut_plain found]
      refine Listed.pass found ?_
      simpa [consChar, commandTexts, Nat.add_assoc] using later
    | some name =>
      cases opens : Fence.ofName? name with
      | some fence =>
        rw [cut_fence found opens]
        have opened := Listed.opener found (by simp [opens])
        simpa [commandTexts, CommandText.places, Fence.eq_name_of_ofName? opens] using opened
      | none =>
        obtain ⟨outside, mark, -⟩ := commandAt?_spec found
        have solid : (c == ' ') = false := by
          rw [beq_eq_false_iff_ne]
          rintro rfl
          cases mark
        rw [solid, outside, Bytewise.quote_of_isMark mark, Bool.bne_false] at later
        rw [cut_block found opens]
        have listed := Listed.command found opens later
        simpa [consCommand, commandTexts, CommandText.places, Nat.add_assoc] using listed

theorem ofLine_listed (line : Text) : Listed line 0
    (CommandText.places (Text.bytes (ofLine line).text) (ofLine line).commandTexts) := by
  simpa [inCode, ofLine] using cut_listed [] line

/-- The parts of a cut line make up the line. -/
theorem join_commandTexts (wordStart inCode : Bool) (t : Text) :
    let s := cut wordStart inCode t
    s.text ++ (s.commandTexts.map CommandText.raw).flatten = t := by
  have whole := cut_join wordStart inCode t
  dsimp only at whole ⊢
  rw [openerText] at whole
  rw [commandTexts]
  cases opened : (cut wordStart inCode t).opener <;> simpa [opened] using whole

end Segments

/-! ## The names of commands -/

/-- Whether a command has the name that is read at its front. -/
def CommandText.Named (command : CommandText) : Prop :=
  ∃ mark t, command.raw = mark :: t ∧ Command.isMark mark = true ∧
    Command.name? t = some command.name

/-- A name does not go on into the command that follows. -/
theorem Command.name?_front {a b name : Text} (h : name? (a ++ b) = some name) (front : name <+: a)
    (stop : ∀ c ∈ b.head?, isMark c = true) : name? a = some name := by
  obtain ⟨more, rfl⟩ := front
  unfold name? at h
  split at h
  case h_6 c rest open_ close dollar left right same =>
    obtain ⟨letter, named⟩ := Option.ite_none_right_eq_some.1 h
    cases named
    have rest_eq : rest.takeWhile isNameChar ++ more ++ b = rest := (List.cons.inj same).2
    have outside : ∀ d ∈ b.head?, isNameChar d = false := by
      intro d mem
      rw [← Bool.not_eq_true]
      intro inside
      have unmarked := (dull_of_isNameChar inside).1
      rw [stop d mem] at unmarked
      cases unmarked
    have run := (Text.takeWhile_append outside (rest.takeWhile isNameChar ++ more)).1
    rw [rest_eq] at run
    have apart {d : Char} (not : ∀ tail, c = 'f' → rest = d :: tail → False) (tail : Text)
        (f : c = 'f') (front : (rest.takeWhile isNameChar).append more = d :: tail) : False :=
      not (tail ++ b) f (by rw [← rest_eq]; exact congrArg (· ++ b) front)
    rw [List.cons_append, name?, if_pos letter]
    · exact congrArg (fun run => some (c :: run)) run.symm
    · exact apart open_
    · exact apart close
    · exact apart dollar
    · exact left
    · exact right
  case h_7 => cases h
  all_goals
    cases h
    rfl

theorem CommandText.head?_raws {commands : List CommandText}
    (named : ∀ command ∈ commands, command.Named) :
    ∀ c ∈ (commands.map CommandText.raw).flatten.head?, Command.isMark c = true := by
  cases commands with
  | nil => simp
  | cons command rest =>
    obtain ⟨mark, t, raw, marked, -⟩ := named command List.mem_cons_self
    simpa [raw] using marked

theorem Segments.commandTexts_named (wordStart inCode : Bool) (t : Text) :
    ∀ command ∈ (cut wordStart inCode t).commandTexts, command.Named := by
  induction t generalizing wordStart inCode with
  | nil => simp [cut, nil, commandTexts]
  | cons c t ih =>
    cases found : commandAt? wordStart inCode c t with
    | none =>
      rw [cut_plain found]
      exact ih _ _
    | some name =>
      obtain ⟨-, mark, read⟩ := commandAt?_spec found
      cases opens : Fence.ofName? name with
      | some fence =>
        rw [cut_fence found opens]
        simp only [commandTexts, List.nil_append, Option.map_some, Option.toList_some,
          List.forall_mem_singleton]
        exact ⟨c, t, rfl, mark, Fence.eq_name_of_ofName? opens ▸ read⟩
      | none =>
        rw [cut_block found opens]
        refine List.forall_mem_cons.2 ⟨⟨c, _, rfl, mark, ?_⟩, ih false false⟩
        have whole := join_commandTexts false false t
        dsimp only at whole
        obtain ⟨⟨more, rfl⟩, dull⟩ := Command.name?_spec read
        refine Command.name?_front (whole.symm ▸ read) ?_ (CommandText.head?_raws (ih false false))
        rw [cut_dull dull]
        exact List.prefix_append _ _

theorem CommandText.Named.headed {command : CommandText} (h : command.Named) :
    Bytewise.Headed (some command.name) command.raw := by
  obtain ⟨mark, t, raw, marked, read⟩ := h
  rintro _ ⟨⟩
  exact ⟨mark, marked, raw ▸ List.cons_prefix_cons.2 ⟨rfl, (Command.name?_spec read).1⟩⟩

namespace Bytewise

/-! ## Slices -/

def LinePart.raw : LinePart → Text
  | .text raw => raw
  | .command _ _ _ raw => raw

/-- A line from `start` on, cut where some commands stand. The first part belongs to `name`. -/
def slices? (line : Text) (start : Nat) (name : Option Text) :
    List (Nat × Text) → Option (List LinePart)
  | [] => (part? line start (Text.bytes line) name).map ([·])
  | (stop, next) :: rest => do
    let here ← part? line start stop name
    let later ← slices? line stop (some next) rest
    some (here :: later)

theorem slices?_places {name : Option Text} {raw : Text} (headed : Headed name raw)
    {commands : List CommandText} (named : ∀ command ∈ commands, command.Named) (before : Text) :
    slices? (before ++ raw ++ (commands.map CommandText.raw).flatten) (Text.bytes before) name
        (CommandText.places (Text.bytes (before ++ raw)) commands) =
      some (.of (Text.bytes before) name raw ::
        LinePart.ofCommands (Text.bytes (before ++ raw)) commands) := by
  induction commands generalizing before name raw with
  | nil =>
    have last := part?_bytes headed before []
    rw [List.append_nil] at last
    simp only [List.map_nil, List.flatten_nil, List.append_nil, CommandText.places, slices?, last]
    rfl
  | cons command rest ih =>
    obtain ⟨here, later⟩ := List.forall_mem_cons.1 named
    have first := part?_bytes headed before (command.raw ++ (rest.map CommandText.raw).flatten)
    have others := ih here.headed later (before ++ raw)
    rw [Text.bytes_append (before ++ raw), List.append_assoc (before ++ raw)] at others
    rw [List.map_cons, List.flatten_cons, CommandText.places, slices?, first, others]
    rfl

theorem mem_ofCommands {commands : List CommandText} {start column : Nat} {name rest raw : Text}
    (mem : .command name rest column raw ∈ LinePart.ofCommands start commands) :
    ⟨name, raw⟩ ∈ commands := by
  induction commands generalizing start with
  | nil => cases mem
  | cons command commands ih =>
    rw [LinePart.ofCommands, List.mem_cons] at mem
    rcases mem with here | later
    · cases here
      exact List.mem_cons_self
    · exact List.mem_cons_of_mem _ (ih later)

theorem map_raw_ofCommands (start : Nat) (commands : List CommandText) :
    (LinePart.ofCommands start commands).map LinePart.raw = commands.map CommandText.raw := by
  induction commands generalizing start with
  | nil => rfl
  | cons command commands ih => exact congrArg (command.raw :: ·) (ih _)

theorem ofCommands_concat (start : Nat) (commands : List CommandText) (last : CommandText) :
    ∃ column, LinePart.ofCommands start (commands ++ [last]) =
      LinePart.ofCommands start commands ++ [.of column (some last.name) last.raw] := by
  induction commands generalizing start with
  | nil => exact ⟨start, rfl⟩
  | cons command commands ih =>
    obtain ⟨column, same⟩ := ih (start + Text.bytes command.raw)
    exact ⟨column, congrArg (_ :: ·) same⟩

theorem opener?_of_closed {commands : List CommandText}
    (closed : ∀ command ∈ commands, Fence.ofName? command.name = none) (start : Nat) :
    ∀ part ∈ LinePart.ofCommands start commands, part.opener? = none := by
  induction commands generalizing start with
  | nil => simp [LinePart.ofCommands]
  | cons command commands ih =>
    obtain ⟨here, later⟩ := List.forall_mem_cons.1 closed
    refine List.forall_mem_cons.2 ⟨?_, ih later _⟩
    simp [LinePart.of, LinePart.opener?, here]

/-- Nothing follows the part that opens a fence. -/
theorem opener?_dropLast (line : Text) :
    ∀ part ∈ (LinePart.ofSegments 0 none [] (Segments.ofLine line)).dropLast,
      part.opener? = none := by
  have closed := opener?_of_closed (Segments.commands_closed true false line)
  rw [LinePart.ofSegments, Segments.commandTexts]
  cases (Segments.ofLine line).opener with
  | none =>
    intro part mem
    have mem := List.dropLast_subset _ mem
    rw [Option.map_none, Option.toList_none, List.append_nil, List.mem_cons] at mem
    rcases mem with rfl | mem
    · rfl
    · exact closed _ part mem
  | some opener =>
    obtain ⟨column, same⟩ := ofCommands_concat
      (0 + Text.bytes ([] ++ (Segments.ofLine line).text)) (Segments.ofLine line).commands
      ⟨opener.1.name, opener.2⟩
    rw [Option.map_some, Option.toList_some, same, ← List.cons_append, List.dropLast_concat]
    exact List.forall_mem_cons.2 ⟨rfl, closed _⟩

/-- Every line is cut at its commands up to the first that opens a fence. The parts are the slices
between these, without gaps; each command has the name that is read at its front, and an opener
takes the rest of the line. -/
theorem line_cut_at_commands (line : Text) : ∃ parts commands, parts? line = some parts ∧
    parts = LinePart.ofSegments 0 none [] (Segments.ofLine line) ∧
    commands.Pairwise (fun a b => a.1 < b.1) ∧
    (∀ position name, (position, name) ∈ commands ↔ CommandAt line position name ∧
      ∀ earlier other, earlier < position → CommandAt line earlier other →
        Fence.ofName? other = none) ∧
    slices? line 0 none commands = some parts ∧
    (parts.map LinePart.raw).flatten = line ∧
    (∀ name rest column raw, .command name rest column raw ∈ parts →
      Command.name? raw.tail = some name) ∧
    ∀ part ∈ parts.dropLast, part.opener? = none := by
  have listed := Segments.ofLine_listed line
  have named : ∀ command ∈ (Segments.ofLine line).commandTexts, command.Named :=
    Segments.commandTexts_named true false line
  have whole : (Segments.ofLine line).text ++
      ((Segments.ofLine line).commandTexts.map CommandText.raw).flatten = line :=
    Segments.join_commandTexts true false line
  refine ⟨_, _, parts?_eq line, rfl, listed.sorted, fun position name => ?_, ?_, ?_, ?_,
    opener?_dropLast line⟩
  · simpa using listed.complete position name
  · have headed : Headed none (Segments.ofLine line).text := by rintro _ ⟨⟩
    have sliced := slices?_places headed named []
    rw [List.nil_append, whole] at sliced
    simpa [LinePart.ofSegments] using sliced
  · rw [LinePart.ofSegments, List.map_cons, map_raw_ofCommands]
    exact whole
  · rintro name rest column raw mem
    rw [LinePart.ofSegments, List.mem_cons] at mem
    obtain ⟨mark, t, rfl, -, read⟩ :=
      named _ (mem_ofCommands (mem.resolve_left (by simp [LinePart.of])))
    exact read

end Bytewise

end DocComment
