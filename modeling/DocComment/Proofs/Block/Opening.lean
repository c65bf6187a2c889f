import DocComment.Proofs.Block.Nesting
import DocComment.Proofs.Line.Plain
import DocComment.Proofs.Line.Stream

/-!
# Lines that open a definition list

The tag of the list is the first thing on such a line. It holds no command mark, so the first
token of the line is text that holds the tag.
-/

set_option autoImplicit false

namespace DocComment

/-! ## Characters -/

theorem Text.eq_of_toLower {c d : Char} (h : c.toLower = d)
    (fixed : d.toNat < 'a'.toNat ∨ 'z'.toNat < d.toNat) : c = d := by
  unfold Char.toLower at h
  split at h
  next upper =>
    obtain ⟨low, high⟩ := upper
    have value : d.toNat = (c.val + ('a'.val - 'A'.val)).toNat := congrArg Char.toNat h.symm
    have low : 65 ≤ c.val.toNat := low
    have high : c.val.toNat ≤ 90 := high
    rw [UInt32.toNat_add] at value
    have a : 'a'.toNat = 97 := rfl
    have z : 'z'.toNat = 122 := rfl
    have shift : ('a'.val - 'A'.val).toNat = 32 := rfl
    omega
  next => exact h

theorem Text.isDecimalDigit_of_isSpace {c : Char} (h : isSpace c = true) :
    isDecimalDigit c = false := by
  have zeros : ∀ first ∈ digitZeros,
      (first = 0x30 ∨ 0x660 ≤ first) ∧ (first + 10 ≤ 0x1680 ∨ 0x17E0 ≤ first) ∧
        (first + 10 ≤ 0x2000 ∨ 0xA620 ≤ first) := by decide
  refine List.any_eq_false.mpr fun first mem => ?_
  have := zeros first mem
  simp only [isSpace, Bool.or_eq_true, Bool.and_eq_true, decide_eq_true_eq, beq_iff_eq] at h
  simp only [Bool.and_eq_true, decide_eq_true_eq]
  omega

theorem Command.isMark_of_isSpace {c : Char} (h : Text.isSpace c = true) : isMark c = false := by
  have at_ : c ≠ '@' := by
    rintro rfl
    simp [Text.isSpace] at h
  have backslash : c ≠ '\\' := by
    rintro rfl
    simp [Text.isSpace] at h
  simp [isMark, at_, backslash]

/-! ## Kinds of lines -/

theorem mem_splitOn {c separator : Char} {t : Text} (mem : c ∈ t) (h : c ≠ separator) :
    ∃ piece ∈ t.splitOn separator, c ∈ piece := by
  induction t with
  | nil => simp at mem
  | cons d t ih =>
    rw [List.splitOn, List.splitOnP_cons_eq_if_modifyHead, ← List.splitOn]
    obtain ⟨first, others, pieces⟩ := List.exists_cons_of_ne_nil (List.splitOn_ne_nil separator t)
    rw [pieces] at ih ⊢
    rcases List.mem_cons.mp mem with rfl | later
    · exact ⟨c :: first, by simp [h], by simp⟩
    · obtain ⟨piece, known, inside⟩ := ih later
      split
      next => exact ⟨piece, List.mem_cons_of_mem _ known, inside⟩
      next =>
        rcases List.mem_cons.mp known with rfl | other
        · exact ⟨d :: piece, by simp, by simp [inside]⟩
        · exact ⟨piece, by simp [other], inside⟩

namespace TableLine

theorem alignment?_of_mem {piece : Text} {c : Char} (mem : c ∈ piece)
    (space : Text.isSpace c = false) (colon : c ≠ ':') (dash : c ≠ '-') :
    alignment? piece = none := by
  have cell := Text.mem_trim mem space
  have noColon : (c == ':') = false := by simpa using colon
  have start := Text.mem_dropWhile_of_not (p := (· == ':')) cell noColon
  have back := Text.mem_dropWhile_of_not (p := (· == ':')) (List.mem_reverse.mpr start) noColon
  have inner : c ∈ Text.trimMatches ':' (Text.trim piece) := List.mem_reverse.mpr back
  have other : (Text.trimMatches ':' (Text.trim piece)).any (· != '-') = true :=
    List.any_eq_true.mpr ⟨c, inner, by simpa using dash⟩
  simp [alignment?, other]

/-- A separator holds nothing but pipes, colons, dashes and white space. -/
theorem separator?_of_mem {t : Text} {c : Char} (mem : c ∈ t) (space : Text.isSpace c = false)
    (pipe : c ≠ '|') (colon : c ≠ ':') (dash : c ≠ '-') : separator? t = none := by
  have front (u : Text) (h : c ∈ u) : c ∈ (Text.dropPrefix? ['|'] u).getD u := by
    cases found : Text.dropPrefix? ['|'] u with
    | none => exact h
    | some rest =>
      rw [Text.dropPrefix?_eq_some.mp found] at h
      simpa [pipe] using h
  have back (u : Text) (h : c ∈ u) : c ∈ (Text.dropSuffix? ['|'] u).getD u := by
    unfold Text.dropSuffix?
    cases found : Text.dropPrefix? ['|'].reverse u.reverse with
    | none => exact h
    | some rest =>
      have split := Text.dropPrefix?_eq_some.mp found
      have reversed := List.mem_reverse.mpr h
      rw [split] at reversed
      simpa [pipe] using reversed
  unfold separator?
  dsimp only
  split
  next =>
    obtain ⟨piece, known, inside⟩ := mem_splitOn (back _ (front _ (Text.mem_trim mem space))) pipe
    rw [← Option.not_isSome_iff_eq_none, isSome_mapM]
    intro all
    simpa [alignment?_of_mem inside space colon dash] using all piece known
  next => rfl

end TableLine

namespace Token.Kind

/-- A text in which a tag is the first thing is of no other kind than text. -/
theorem ofText_angle {t rest : Text} (h : Text.trimStart t = '<' :: rest) :
    ofText t = .text (Text.bytes t - Text.bytes (Text.trimStart t))
      (Text.trimEnd (Text.trimStart t)) := by
  have split : t = t.takeWhile Text.isSpace ++ '<' :: rest := by
    rw [← h]
    exact List.takeWhile_append_dropWhile.symm
  have front (space : Text) (blank : ∀ c ∈ space, Text.isSpace c = true) :
      ∃ c more, (space ++ '<' :: rest).dropWhile (· == ' ') = c :: more ∧
        (Text.isSpace c = true ∨ c = '<') := by
    induction space with
    | nil => exact ⟨'<', rest, rfl, .inr rfl⟩
    | cons c space ih =>
      obtain ⟨here, later⟩ := List.forall_mem_cons.mp blank
      by_cases narrow : c = ' '
      · simpa [narrow] using ih later
      · exact ⟨c, space ++ '<' :: rest, by simp [narrow], .inl here⟩
  obtain ⟨c, more, start, kind⟩ := front _ fun c => List.mem_takeWhile_imp
  rw [← split] at start
  have inside : '<' ∈ t := by rw [split]; simp
  have trimmed : Text.trim t = '<' :: Text.trimEnd rest := by
    rw [Text.trim, h]
    exact Text.trimEnd_append (a := ['<']) fun _ => by simp [Text.isSpace]
  have quote : QuoteLine.read? t = none := by
    refine QuoteLine.read?_of_ne start ?_
    rintro rfl
    simp [Text.isSpace] at kind
  have cells : TableLine.cells? t = none := by simp [TableLine.cells?, trimmed]
  have item : ListLine.read? t = none := by
    refine ListLine.read?_of_start start ?_ ?_
    · rcases kind with space | rfl
      · exact Text.isDecimalDigit_of_isSpace space
      · decide
    · simp only [List.mem_cons, List.not_mem_nil, or_false]
      rintro (rfl | rfl | rfl) <;> simp [Text.isSpace] at kind
  rw [ofText, quote, TableLine.separator?_of_mem inside rfl (by decide) (by decide) (by decide),
    cells, item]

end Token.Kind

/-! ## The first token -/

/-- The text before the first command holds at least what stands before the first mark. -/
theorem Segments.cut_front {front : Text} (h : ∀ c ∈ front, Command.isMark c = false) (rest : Text)
    (wordStart inCode : Bool) :
    ∃ more, (cut wordStart inCode (front ++ rest)).text = front ++ more := by
  induction front generalizing wordStart inCode with
  | nil => exact ⟨_, rfl⟩
  | cons c front ih =>
    obtain ⟨here, later⟩ := List.forall_mem_cons.mp h
    obtain ⟨more, same⟩ := ih later (c == ' ') (inCode != (c == '\x60'))
    exact ⟨more, by simp [cut, here, consChar, same]⟩

theorem DefinitionTag.startsList_iff {t : Text} : startsList t = true ↔
    ∃ d l rest, Text.trimStart t = '<' :: d :: l :: '>' :: rest ∧ d.toLower = 'd' ∧
      l.toLower = 'l' := by
  unfold startsList
  generalize Text.trimStart t = u
  constructor
  · intro h
    rcases u with _ | ⟨a, _ | ⟨d, _ | ⟨l, _ | ⟨b, rest⟩⟩⟩⟩ <;>
      simp [openList, Text.startsWithIgnoringCase] at h
    obtain ⟨opens, first, second, closes⟩ := h
    obtain rfl := Text.eq_of_toLower opens.symm (.inl (by decide))
    obtain rfl := Text.eq_of_toLower closes.symm (.inl (by decide))
    exact ⟨d, l, rest, rfl, first.symm, second.symm⟩
  · rintro ⟨d, l, rest, rfl, first, second⟩
    simp [openList, Text.startsWithIgnoringCase, first, second]

theorem Command.isMark_of_toLower {c d : Char} (h : c.toLower = d) (letter : d.isAlpha) :
    isMark c = false := by
  have at_ : c ≠ '@' := by
    rintro rfl
    exact Text.ne_of_isAlpha letter rfl h.symm
  have backslash : c ≠ '\\' := by
    rintro rfl
    exact Text.ne_of_isAlpha letter rfl h.symm
  simp [isMark, at_, backslash]

theorem Token.scan_front (line : Nat) (t : Text) :
    ∃ more, (scan line none t).1 = beforeOpener line t ++ more := by
  cases opened : (Segments.ofLine t).opener with
  | none => exact ⟨[], by rw [scan_unopened opened, List.append_nil]⟩
  | some o =>
    rw [scan_opened opened]
    dsimp only
    split
    · exact ⟨_, rfl⟩
    · exact ⟨_, rfl⟩

theorem DefinitionTag.isBlank_of_startsList {t : Text} (h : startsList t = true) :
    Text.isBlank t = false := by
  obtain ⟨d, l, rest, trimmed, -⟩ := startsList_iff.mp h
  have inside : '<' ∈ t := (Text.trimStart_sublist t).subset (by simp [trimmed])
  exact List.all_eq_false.mpr ⟨'<', inside, by decide⟩

/-- The text before the first command of a line opens a list if the line does. -/
theorem Segments.startsList_text {t : Text} (h : DefinitionTag.startsList t = true) :
    DefinitionTag.startsList (ofLine t).text = true ∧
      Definition.margin (ofLine t).text = Definition.margin t := by
  obtain ⟨d, l, rest, trimmed, first, second⟩ := DefinitionTag.startsList_iff.mp h
  let space := t.takeWhile Text.isSpace
  have spaces : ∀ c ∈ space, Text.isSpace c = true := fun c => List.mem_takeWhile_imp
  have split : t = space ++ ['<', d, l, '>'] ++ rest := by
    rw [List.append_assoc]
    change t = space ++ '<' :: d :: l :: '>' :: rest
    rw [← trimmed]
    exact List.takeWhile_append_dropWhile.symm
  have unmarked : ∀ c ∈ space ++ ['<', d, l, '>'], Command.isMark c = false := by
    have hd := Command.isMark_of_toLower first rfl
    have hl := Command.isMark_of_toLower second rfl
    refine List.forall_mem_append.mpr ⟨fun c hc => Command.isMark_of_isSpace (spaces c hc), ?_⟩
    simp only [List.forall_mem_cons, hd, hl]
    exact ⟨rfl, trivial, trivial, rfl, by simp⟩
  obtain ⟨more, text⟩ := cut_front unmarked rest true false
  rw [← split, ← ofLine, List.append_assoc] at text
  have start : Text.trimStart (ofLine t).text = '<' :: d :: l :: '>' :: more := by
    rw [text]
    exact Text.trimStart_append spaces rfl
  refine ⟨DefinitionTag.startsList_iff.mpr ⟨d, l, more, start, first, second⟩, ?_⟩
  rw [Definition.margin, Definition.margin, start, trimmed, text]
  conv_rhs => rw [split]
  simp

theorem Token.Kind.ofText_startsList {t : Text} (h : DefinitionTag.startsList t = true) :
    ∃ text, ofText t = .text (Definition.margin t) text ∧
      DefinitionTag.startsList text = true := by
  obtain ⟨d, l, rest, trimmed, first, second⟩ := DefinitionTag.startsList_iff.mp h
  refine ⟨_, ofText_angle trimmed, ?_⟩
  have kept : Text.trimEnd ('<' :: d :: l :: '>' :: rest) =
      '<' :: d :: l :: '>' :: Text.trimEnd rest :=
    Text.trimEnd_append (a := ['<', d, l, '>']) fun _ => by simp [Text.isSpace]
  rw [trimmed, kept]
  exact DefinitionTag.startsList_iff.mpr
    ⟨d, l, _, Text.trimStart_eq_self (by simp [Text.isSpace]), first, second⟩

/-- The first token of a line that opens a list is text that opens it. -/
theorem Token.ofLine_startsList (line : Nat) {t : Text} (h : DefinitionTag.startsList t = true) :
    ∃ raw text more, (ofLine line none t).1 =
      ⟨line, .text (Definition.margin t) text, raw⟩ :: more ∧
        DefinitionTag.startsList text = true := by
  have full := DefinitionTag.isBlank_of_startsList h
  obtain ⟨opens, margin⟩ := Segments.startsList_text h
  have shown := DefinitionTag.isBlank_of_startsList opens
  obtain ⟨text, kind, again⟩ := Kind.ofText_startsList opens
  obtain ⟨others, tokens⟩ := scan_front line t
  rw [margin] at kind
  refine ⟨(Segments.ofLine t).text, text,
    ofCommands line (Text.bytes (Segments.ofLine t).text) (Segments.ofLine t).commands ++ others,
    ?_, again⟩
  simp [ofLine, full, tokens, beforeOpener, ofText, shown, kind]

end DocComment
