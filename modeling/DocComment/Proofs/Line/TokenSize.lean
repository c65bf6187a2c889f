import DocComment.Line.Tokenizer
import DocComment.Proofs.Text.Size

/-!
# Sizes of tokens

The tokens of a line share its text among them, with one exception: the token that opens a fence
holds the rest of the line, and if a body follows on the same line, that is read once more. Such
a token repeats what the tokens after it hold, so it is not counted. No token holds anything that
is not in its line.
-/

set_option autoImplicit false

namespace DocComment

namespace Segments

/-- The end of the line that a fence opener takes. -/
def openerText (s : Segments) : Text := (s.opener.map Prod.snd).getD []

/-- The parts of a line that is cut make up the line. -/
theorem cut_join (wordStart inCode : Bool) (t : Text) :
    let s := cut wordStart inCode t
    s.text ++ ((s.commands.map CommandText.raw).flatten ++ s.openerText) = t := by
  induction t generalizing wordStart inCode with
  | nil => rfl
  | cons c t ih =>
    dsimp only
    rw [cut]
    split
    · simp [openerText]
    · have := ih false false
      simpa [consCommand, openerText] using this
    · have := ih (c == ' ') (inCode != (c == '\x60'))
      simpa [consChar, openerText] using this

theorem cut_bytes (wordStart inCode : Bool) (t : Text) :
    let s := cut wordStart inCode t
    Text.bytes s.text + Text.size (s.commands.map CommandText.raw) + Text.bytes s.openerText =
      Text.bytes t := by
  have parts := congrArg Text.bytes (cut_join wordStart inCode t)
  rw [Text.bytes_append, Text.bytes_append, ← Nat.add_assoc] at parts
  exact parts

end Segments

namespace Token

/-- What follows the argument of a fence on the line that opens it. -/
def sameLineBody (fence : Fence) (raw : Text) : Text :=
  (fence.argument (raw.drop (1 + fence.name.length))).2

theorem bytes_sameLineBody (fence : Fence) (raw : Text) :
    Text.bytes (sameLineBody fence raw) ≤ Text.bytes raw :=
  Text.bytes_le_of_sublist
    (((fence.argument_suffix _).sublist).trans (List.drop_sublist _ _))

/-- Whether the token opens a fence and holds the first line of the body as well, which is read
again as a token of its own. -/
def repeats (token : Token) : Bool :=
  match token.kind with
  | .fenceOpen fence _ => !Text.isBlank (sameLineBody fence token.raw)
  | _ => false

/-- The bytes that the token does not share with a later one. -/
def cost (token : Token) : Nat := if token.repeats then 0 else Text.bytes token.raw

def totalCost (tokens : List Token) : Nat := (tokens.map cost).sum

@[simp]
theorem totalCost_nil : totalCost [] = 0 := rfl

@[simp]
theorem totalCost_cons (token : Token) (tokens : List Token) :
    totalCost (token :: tokens) = token.cost + totalCost tokens := by
  simp [totalCost]

@[simp]
theorem totalCost_append (a b : List Token) :
    totalCost (a ++ b) = totalCost a + totalCost b := by
  simp [totalCost]

theorem cost_le (token : Token) : token.cost ≤ Text.bytes token.raw := by
  rw [cost]
  split
  · exact Nat.zero_le _
  · exact Nat.le_refl _

theorem totalCost_ofText (line : Nat) (t : Text) : totalCost (ofText line t) ≤ Text.bytes t := by
  rw [ofText]
  split
  · exact Nat.zero_le _
  · simpa using cost_le ⟨line, .ofText t, t⟩

theorem totalCost_ofCommands (line column : Nat) (commands : List CommandText) :
    totalCost (ofCommands line column commands) ≤
      Text.size (commands.map CommandText.raw) := by
  induction commands generalizing column with
  | nil => exact Nat.le_refl _
  | cons command rest ih =>
    rw [ofCommands, totalCost_cons, List.map_cons, Text.size_cons]
    exact Nat.add_le_add (cost_le _) (ih _)

theorem totalCost_beforeOpener (line : Nat) (t : Text) :
    totalCost (ofText line (Segments.ofLine t).text ++
        ofCommands line (Text.bytes (Segments.ofLine t).text) (Segments.ofLine t).commands) +
      Text.bytes (Segments.ofLine t).openerText ≤ Text.bytes t := by
  have parts : _ = Text.bytes t := Segments.cut_bytes true false t
  rw [totalCost_append, ← parts]
  exact Nat.add_le_add_right (Nat.add_le_add (totalCost_ofText _ _) (totalCost_ofCommands _ _ _)) _

theorem totalCost_scan (line : Nat) (fence : Option Fence) (t : Text) :
    totalCost (scan line fence t).1 ≤ Text.bytes t := by
  fun_induction scan line fence t with
  | case1 t fence _ => simpa using cost_le ⟨line, .fenceBody t, t⟩
  | case2 t fence cut hcut body here later ih =>
    have parts := congrArg Text.bytes (Fence.close?_append hcut).1
    have front : totalCost here ≤ Text.bytes cut.before + Text.bytes cut.tag := by
      rw [totalCost_append, totalCost_cons, totalCost_nil]
      refine Nat.add_le_add ?_ (cost_le ⟨line, .fenceClose fence false, cut.tag⟩)
      split
      · exact Nat.zero_le _
      · rw [totalCost_cons, totalCost_nil]
        exact (cost_le ⟨line, .fenceBody body, body⟩).trans
          (Text.bytes_le_of_sublist (Text.trimEnd_sublist _))
    have back : totalCost later.1 ≤ Text.bytes cut.after :=
      ih.trans (Text.bytes_le_of_sublist (Text.trimStart_sublist _))
    rw [totalCost_append, parts, Text.bytes_append, Text.bytes_append, ← Nat.add_assoc]
    exact Nat.add_le_add front back
  | case3 t segments here _ => exact (Nat.le_add_right _ _).trans (totalCost_beforeOpener line t)
  | case4 t segments here fence raw opened split start _ =>
    have front := totalCost_beforeOpener line t
    have opener : (Segments.ofLine t).openerText = raw := by rw [Segments.openerText, opened]; rfl
    rw [opener] at front
    rw [totalCost_append, totalCost_cons, totalCost_nil]
    exact (Nat.add_le_add_left (cost_le start) _).trans front
  | case5 t segments here fence raw opened split start body later ih =>
    have front := totalCost_beforeOpener line t
    have opener : (Segments.ofLine t).openerText = raw := by rw [Segments.openerText, opened]; rfl
    rw [opener] at front
    have again : start.cost = 0 := by
      have : start.repeats = true := by simpa [repeats, start, sameLineBody] using body
      rw [cost, if_pos this]
    have back := (ih.trans (Text.bytes_le_of_sublist (Text.trimStart_sublist _))).trans
      (bytes_sameLineBody fence raw)
    rw [totalCost_append, totalCost_cons, again, Nat.zero_add]
    exact (Nat.add_le_add_left back _).trans front

theorem totalCost_ofLines (line : Nat) (fence : Option Fence) (lines : List Text) :
    totalCost (ofLines line fence lines) ≤ Text.size lines := by
  induction lines generalizing line fence with
  | nil => cases fence <;> simp [ofLines, cost]
  | cons t rest ih =>
    rw [ofLines, totalCost_append, Text.size_cons]
    refine Nat.add_le_add ?_ (ih _ _)
    rw [ofLine]
    split
    · simpa using cost_le ⟨line, .blank, t⟩
    · exact totalCost_scan line fence t

end Token

/-! ## What tokens are read from -/

/-- A quoted text is the end of its line, behind the mark. -/
theorem QuoteLine.read?_suffix {t : Text} {quoted : QuoteLine} (read : read? t = some quoted) :
    ∃ c, c :: quoted.text <:+ t := by
  have marked {marks : Text} (unindented : t.dropWhile (· == ' ') = marks) : marks <:+ t :=
    unindented ▸ List.dropWhile_suffix _
  unfold read? at read
  split at read
  next text spaced =>
    cases read
    exact ⟨' ', (List.suffix_cons '>' _).trans (marked spaced)⟩
  next text _ unspaced =>
    cases read
    exact ⟨'>', marked unspaced⟩
  next => cases read

/-- Whether a token was read from some text: it holds nothing else, and as a quoted line it quotes
what it holds. -/
structure Token.ReadFrom (t : Text) (token : Token) : Prop where
  raw : token.raw ⊆ t
  quote : ∀ indent text, token.kind = .quote indent text →
    QuoteLine.read? token.raw = some ⟨indent, text⟩

namespace Token

theorem ReadFrom.mono {t u : Text} {token : Token} (h : token.ReadFrom t) (sub : t ⊆ u) :
    token.ReadFrom u := ⟨List.Subset.trans h.raw sub, h.quote⟩

theorem readFrom_ofText (line : Nat) (t : Text) : ∀ token ∈ ofText line t, token.ReadFrom t := by
  unfold ofText
  split
  · simp
  refine List.forall_mem_singleton.2 ⟨List.Subset.refl t, fun indent text kind => ?_⟩
  dsimp only at kind ⊢
  unfold Kind.ofText at kind
  split at kind
  next quoted read =>
    cases kind
    exact read
  all_goals cases kind

theorem readFrom_ofCommands (line column : Nat) (commands : List CommandText) :
    ∀ token ∈ ofCommands line column commands,
      token.ReadFrom (commands.map CommandText.raw).flatten := by
  induction commands generalizing column with
  | nil => simp [ofCommands]
  | cons command rest ih =>
    refine List.forall_mem_cons.2 ⟨⟨List.subset_append_left _ _, fun indent text kind => ?_⟩, ?_⟩
    · dsimp only [Kind.ofCommand] at kind
      split at kind <;> cases kind
    · exact fun token mem => (ih _ token mem).mono (List.subset_append_right _ _)

theorem readFrom_scan (line : Nat) (fence : Option Fence) (t : Text) :
    ∀ token ∈ (scan line fence t).1, token.ReadFrom t := by
  have parts (t : Text) : _ = t := Segments.cut_join true false t
  have front (t : Text) : ∀ token ∈ ofText line (Segments.ofLine t).text ++ ofCommands line
      (Text.bytes (Segments.ofLine t).text) (Segments.ofLine t).commands, token.ReadFrom t := by
    refine List.forall_mem_append.2 ⟨fun token mem => ?_, fun token mem => ?_⟩
    · refine (readFrom_ofText line _ token mem).mono ?_
      conv_rhs => rw [← parts t]
      exact List.subset_append_left _ _
    · refine (readFrom_ofCommands line _ _ token mem).mono ?_
      conv_rhs => rw [← parts t]
      exact List.Subset.trans (List.subset_append_left _ _) (List.subset_append_right _ _)
  fun_induction scan line fence t with
  | case1 t fence _ => exact List.forall_mem_singleton.2 ⟨List.Subset.refl t, nofun⟩
  | case2 t fence cut closed body here later ih =>
    obtain ⟨whole, -⟩ := Fence.close?_append closed
    have before : cut.before ⊆ t := whole ▸ List.subset_append_left _ _
    have tag : cut.tag ⊆ t :=
      whole ▸ List.Subset.trans (List.subset_append_left _ _) (List.subset_append_right _ _)
    have after : cut.after ⊆ t :=
      whole ▸ List.Subset.trans (List.subset_append_right _ _) (List.subset_append_right _ _)
    refine List.forall_mem_append.2 ⟨List.forall_mem_append.2 ⟨?_, ?_⟩, fun token mem => ?_⟩
    · split
      · simp
      · have body := List.Subset.trans (Text.trimEnd_sublist cut.before).subset before
        exact List.forall_mem_singleton.2 ⟨body, nofun⟩
    · exact List.forall_mem_singleton.2 ⟨tag, nofun⟩
    · exact (ih token mem).mono (List.Subset.trans (Text.trimStart_sublist _).subset after)
  | case3 t segments here _ => exact front t
  | case4 t segments here fence raw opened split start _ =>
    have suffix : raw <:+ t := (Segments.cut_opener opened).1
    exact List.forall_mem_append.2 ⟨front t, List.forall_mem_singleton.2 ⟨suffix.subset, nofun⟩⟩
  | case5 t segments here fence raw opened split start body later ih =>
    have suffix : raw <:+ t := (Segments.cut_opener opened).1
    have inside : split.2 <:+ t :=
      ((fence.argument_suffix _).trans (List.drop_suffix _ _)).trans suffix
    refine List.forall_mem_append.2 ⟨front t,
      List.forall_mem_cons.2 ⟨⟨suffix.subset, nofun⟩, fun token mem => ?_⟩⟩
    exact (ih token mem).mono ((Text.trimStart_sublist _).trans inside.sublist).subset

theorem readFrom_ofLines (line : Nat) (fence : Option Fence) (lines : List Text) :
    ∀ token ∈ ofLines line fence lines, token.ReadFrom lines.flatten := by
  induction lines generalizing line fence with
  | nil =>
    cases fence with
    | none => simp [ofLines]
    | some fence => exact List.forall_mem_singleton.2 ⟨List.nil_subset _, nofun⟩
  | cons t rest ih =>
    refine List.forall_mem_append.2 ⟨fun token mem => ?_, fun token mem => ?_⟩
    · refine ReadFrom.mono (t := t) ?_ (List.subset_append_left _ _)
      unfold ofLine at mem
      split at mem
      · rw [List.mem_singleton.1 mem]
        exact ⟨List.Subset.refl t, nofun⟩
      · exact readFrom_scan line fence t token mem
    · exact (ih _ _ token mem).mono (List.subset_append_right _ _)

/-- A quoted line is longer than what it quotes. -/
def ShortensQuote (token : Token) : Prop :=
  ∀ indent text, token.kind = .quote indent text → Text.bytes text < Text.bytes token.raw

theorem shortensQuote_ofLines (line : Nat) (fence : Option Fence) (lines : List Text) :
    ∀ token ∈ ofLines line fence lines, token.ShortensQuote := by
  intro token mem indent text kind
  obtain ⟨c, behind⟩ :=
    QuoteLine.read?_suffix ((readFrom_ofLines line fence lines token mem).quote indent text kind)
  have shorter := Text.bytes_le_of_sublist behind.sublist
  have mark := Char.utf8Size_pos c
  simp only [Text.bytes_cons] at shorter
  omega

end Token

end DocComment
