import DocComment.Proofs.Line.Plain
import DocComment.Proofs.Line.Spelled

/-!
# Lines in one piece

A line without block commands is one token, and its kind is that of the line. A line that is read as
one table row is of that sort.
-/

set_option autoImplicit false

namespace DocComment

theorem Segments.uncut_of_whole {t : Text} (commands : (ofLine t).commands = [])
    (opener : (ofLine t).opener = none) : t.Uncut := by
  have whole : (ofLine t).text = t := by
    simpa [commands, openerText, opener] using ofLine_join t
  calc ofLine t = ⟨(ofLine t).text, (ofLine t).commands, (ofLine t).opener⟩ := rfl
    _ = ⟨t, [], none⟩ := by rw [whole, commands, opener]

namespace Token

theorem ofLines_uncut {lines : List Text} (h : ∀ t ∈ lines, t.Uncut) (line : Nat) :
    ofLines line none lines = lines.mapIdx fun i t => plain (line + i) t := by
  induction lines generalizing line with
  | nil => rfl
  | cons t rest ih =>
    obtain ⟨here, later⟩ := List.forall_mem_cons.mp h
    rw [ofLines, ofLine_uncut here]
    dsimp only
    rw [ih later, List.mapIdx_cons]
    simp [Nat.add_assoc, Nat.add_comm 1]

theorem ofCommand_ne_row (column : Nat) (command : CommandText) (cells : List Text) :
    Kind.ofCommand column command ≠ .tableRow cells := by
  unfold Kind.ofCommand
  split <;> simp

/-- A line with a single token that is a table row is not cut. -/
theorem uncut_of_row {line : Nat} {t raw : Text} {cells : List Text} {fence : Option Fence}
    (single : ofLine line none t = ([⟨line, .tableRow cells, raw⟩], fence)) :
    t.Uncut ∧ Text.isBlank t = false ∧ Kind.ofText t = .tableRow cells := by
  have shown : Text.isBlank t = false := by
    cases blank : Text.isBlank t with
    | false => rfl
    | true => simp [ofLine, blank] at single
  have tokens : scan line none t = ([⟨line, .tableRow cells, raw⟩], fence) := by
    simpa [ofLine, shown] using single
  cases opened : (Segments.ofLine t).opener with
  | some o =>
    -- the opener would be a token of its own
    obtain ⟨fence, body⟩ := o
    have start : (fenceStart line fence body).1 ∈ (scan line none t).1 := by
      rw [scan_opened opened]
      dsimp only
      split <;> simp
    rw [tokens, List.mem_singleton] at start
    simp [fenceStart] at start
  | none =>
    have parts : beforeOpener line t = [⟨line, .tableRow cells, raw⟩] := by
      rw [scan_unopened opened] at tokens
      exact congrArg Prod.fst tokens
    have uncut : (Segments.ofLine t).commands = [] := by
      by_contra cut
      obtain ⟨command, rest, cut⟩ := List.exists_cons_of_ne_nil cut
      have here : (⟨line, .ofCommand (Text.bytes (Segments.ofLine t).text) command,
          command.raw⟩ : Token) ∈ beforeOpener line t := by
        rw [beforeOpener, cut, ofCommands]
        exact List.mem_append_right _ List.mem_cons_self
      rw [parts, List.mem_singleton] at here
      exact ofCommand_ne_row _ command cells (congrArg Token.kind here)
    have same := Segments.uncut_of_whole uncut opened
    rw [beforeOpener, same, ofText, shown] at parts
    have kind : Kind.ofText t = .tableRow cells := by
      simpa [ofCommands] using congrArg (List.map Token.kind) parts
    exact ⟨same, shown, kind⟩

end Token

theorem tokenize_cases (lines : List Text) : (∃ e, tokenize lines = .error e) ∨
    tokenize lines = .ok (Token.ofLines 0 none lines) ∧
      ∀ t ∈ lines, ∀ c ∈ t, Text.isControl c = true → c = '\t' := by
  rw [tokenize]
  split
  next e _ => exact .inl ⟨e, rfl⟩
  next clean => exact .inr ⟨rfl, ControlCharacter.find?_eq_none_iff.mp clean⟩

/-- Lines in one piece give one token each. -/
theorem tokenize_uncut {lines : List Text} (uncut : ∀ t ∈ lines, t.Uncut)
    (clean : ∀ t ∈ lines, ∀ c ∈ t, Text.isControl c = true → c = '\t') :
    tokenize lines = .ok (lines.mapIdx Token.plain) := by
  rw [tokenize, ControlCharacter.find?_eq_none_iff.mpr clean, Token.ofLines_uncut uncut]
  simp

/-- A line that is read as a single table row, and its cells. -/
structure RowLine where
  text : Text
  cells : List Text
  single : ∃ raw, tokenize [text] = .ok [⟨0, .tableRow cells, raw⟩]

namespace RowLine

variable (row : RowLine)

theorem ofLine : ∃ raw, Token.ofLine 0 none row.text =
    ([⟨0, .tableRow row.cells, raw⟩], none) := by
  obtain ⟨raw, tokens⟩ := row.single
  obtain ⟨e, error⟩ | ⟨ok, -⟩ := tokenize_cases [row.text]
  · rw [error] at tokens
    cases tokens
  · rw [ok, Token.ofLines, Except.ok.injEq] at tokens
    cases open? : (Token.ofLine 0 none row.text).2 with
    | some fence =>
      -- the implicit end of the fence would be one more token
      have last : (⟨1, .fenceClose fence true, []⟩ : Token) ∈
          [(⟨0, .tableRow row.cells, raw⟩ : Token)] := by
        rw [← tokens]
        simp [open?, Token.ofLines]
      simp at last
    | none =>
      refine ⟨raw, Prod.ext ?_ open?⟩
      simpa [open?, Token.ofLines] using tokens

theorem uncut : row.text.Uncut := by
  obtain ⟨raw, tokens⟩ := row.ofLine
  exact (Token.uncut_of_row tokens).1

theorem clean : ∀ c ∈ row.text, Text.isControl c = true → c = '\t' := by
  obtain ⟨raw, tokens⟩ := row.single
  obtain ⟨e, error⟩ | ⟨-, clean⟩ := tokenize_cases [row.text]
  · rw [error] at tokens
    cases tokens
  · exact clean row.text List.mem_cons_self

theorem plain (line : Nat) :
    Token.plain line row.text = ⟨line, .tableRow row.cells, row.text⟩ := by
  obtain ⟨raw, tokens⟩ := row.ofLine
  obtain ⟨-, shown, kind⟩ := Token.uncut_of_row tokens
  simp [Token.plain, shown, kind]

theorem tokenize (rows : List RowLine) :
    DocComment.tokenize (rows.map text) =
      .ok (rows.mapIdx fun i row => ⟨i, .tableRow row.cells, row.text⟩) := by
  rw [tokenize_uncut]
  · congr 1
    apply List.ext_getElem?
    intro i
    rw [List.getElem?_mapIdx, List.getElem?_mapIdx, List.getElem?_map, Option.map_map]
    exact congrArg (Option.map · rows[i]?) (funext fun row => row.plain i)
  · simpa using fun row _ => row.uncut
  · simpa using fun row _ => row.clean

/-- A row starts with a pipe. -/
theorem trim_text : ∃ t, Text.trim row.text = '|' :: t := by
  obtain ⟨raw, tokens⟩ := row.ofLine
  obtain ⟨-, -, kind⟩ := Token.uncut_of_row tokens
  unfold Token.Kind.ofText at kind
  split at kind
  case h_3 =>
    rename_i found
    unfold TableLine.cells? at found
    split at found
    next inner trimmed => exact ⟨inner, trimmed⟩
    next => cases found
  all_goals cases kind

end RowLine

end DocComment
