import DocComment.Line.Tokenizer
import Mathlib.Data.List.Basic
import Mathlib.Tactic.Use

/-!
# Token streams

Nothing but an open fence passes from one line to the next. So the tokens of a comment are
single tokens and whole fences in turn, and what is read from some lines is read from them
wherever they stand, as long as no fence is open before them.
-/

set_option autoImplicit false

namespace DocComment

namespace Token

/-- Whether the token opens a fence, belongs to its body or closes it. -/
def Kind.isFenced : Kind → Bool
  | .fenceOpen _ _ | .fenceBody _ | .fenceClose _ _ => true
  | _ => false

/-- Whether the token closes a fence that the comment leaves open. -/
def closesAtEnd (token : Token) : Bool :=
  match token.kind with
  | .fenceClose _ isImplicit => isImplicit
  | _ => false

/-- Tokens outside fences and whole fences, each an opener, its body and its own end. -/
inductive WholeFences : List Token → Prop
  | nil : WholeFences []
  | single {token : Token} {rest : List Token} (outside : token.kind.isFenced = false)
      (later : WholeFences rest) : WholeFences (token :: rest)
  | fence {start stop : Token} {body rest : List Token} (fence : Fence) (arg : Option Text)
      (isImplicit : Bool) (opens : start.kind = .fenceOpen fence arg)
      (inside : ∀ token ∈ body, ∃ t, token.kind = .fenceBody t)
      (closes : stop.kind = .fenceClose fence isImplicit)
      (later : WholeFences rest) : WholeFences (start :: (body ++ stop :: rest))

/-- What some tokens make of an open fence: the fence before them, the tokens, and the fence
after them. -/
inductive Leads : Option Fence → List Token → Option Fence → Prop
  | nil (fence : Option Fence) : Leads fence [] fence
  | single {token : Token} {rest : List Token} {after : Option Fence}
      (outside : token.kind.isFenced = false) (later : Leads none rest after) :
      Leads none (token :: rest) after
  | opened {token : Token} {rest : List Token} {after : Option Fence} {fence : Fence}
      {arg : Option Text} (opens : token.kind = .fenceOpen fence arg)
      (later : Leads (some fence) rest after) : Leads none (token :: rest) after
  | body {token : Token} {rest : List Token} {after : Option Fence} {fence : Fence} {t : Text}
      (inside : token.kind = .fenceBody t) (later : Leads (some fence) rest after) :
      Leads (some fence) (token :: rest) after
  | closed {token : Token} {rest : List Token} {after : Option Fence} {fence : Fence}
      {isImplicit : Bool} (closes : token.kind = .fenceClose fence isImplicit)
      (later : Leads none rest after) : Leads (some fence) (token :: rest) after

namespace Leads

theorem append {before between after : Option Fence} {a b : List Token}
    (ha : Leads before a between) (hb : Leads between b after) : Leads before (a ++ b) after := by
  induction ha with
  | nil => exact hb
  | single outside _ ih => exact .single outside (ih hb)
  | opened opens _ ih => exact .opened opens (ih hb)
  | body inside _ ih => exact .body inside (ih hb)
  | closed closes _ ih => exact .closed closes (ih hb)

theorem of_outside {tokens : List Token} (h : ∀ token ∈ tokens, token.kind.isFenced = false) :
    Leads none tokens none := by
  induction tokens with
  | nil => exact .nil none
  | cons token rest ih =>
    exact .single (h token (by simp)) (ih fun later mem => h later (by simp [mem]))

/-- Tokens that leave no fence open are whole fences, after the rest of the one that was open. -/
theorem wholeFences {before after : Option Fence} {tokens : List Token}
    (h : Leads before tokens after) (closed : after = none) :
    match before with
    | none => WholeFences tokens
    | some fence => ∃ body stop rest isImplicit, tokens = body ++ stop :: rest ∧
        (∀ token ∈ body, ∃ t, token.kind = .fenceBody t) ∧
          stop.kind = .fenceClose fence isImplicit ∧ WholeFences rest := by
  induction h with
  | nil fence =>
    subst closed
    exact .nil
  | single outside _ ih => exact .single outside (ih closed)
  | @opened token rest after fence arg opens _ ih =>
    obtain ⟨body, stop, rest, isImplicit, rfl, inside, closes, later⟩ := ih closed
    exact .fence fence arg isImplicit opens inside closes later
  | @body token rest after fence t inside _ ih =>
    obtain ⟨body, stop, rest, isImplicit, rfl, more, closes, later⟩ := ih closed
    exact ⟨token :: body, stop, rest, isImplicit, rfl,
      List.forall_mem_cons.2 ⟨⟨t, inside⟩, more⟩, closes, later⟩
  | @closed token rest after fence isImplicit closes _ ih =>
    exact ⟨[], token, rest, isImplicit, rfl, by simp, closes, ih closed⟩

end Leads

/-! ## One line -/

theorem isFenced_ofText (t : Text) : (Kind.ofText t).isFenced = false := by
  unfold Kind.ofText
  split <;> rfl

theorem isFenced_ofCommand (column : Nat) (command : CommandText) :
    (Kind.ofCommand column command).isFenced = false := by
  unfold Kind.ofCommand
  split <;> rfl

theorem mem_ofText {line : Nat} {t : Text} {token : Token} (h : token ∈ ofText line t) :
    token.line = line ∧ token.kind.isFenced = false := by
  unfold ofText at h
  split at h
  · simp at h
  · rw [List.mem_singleton.1 h]
    exact ⟨rfl, isFenced_ofText t⟩

theorem mem_ofCommands {line column : Nat} {commands : List CommandText} {token : Token}
    (h : token ∈ ofCommands line column commands) :
    token.line = line ∧ token.kind.isFenced = false := by
  induction commands generalizing column with
  | nil => simp [ofCommands] at h
  | cons command rest ih =>
    rcases List.mem_cons.1 h with rfl | later
    · exact ⟨rfl, isFenced_ofCommand column command⟩
    · exact ih later

/-- The tokens of a line up to a fence opener, or to its end if there is none. -/
def beforeOpener (line : Nat) (t : Text) : List Token :=
  ofText line (Segments.ofLine t).text ++
    ofCommands line (Text.bytes (Segments.ofLine t).text) (Segments.ofLine t).commands

theorem mem_beforeOpener {line : Nat} {t : Text} {token : Token}
    (h : token ∈ beforeOpener line t) : token.line = line ∧ token.kind.isFenced = false := by
  rcases List.mem_append.1 h with h | h
  · exact mem_ofText h
  · exact mem_ofCommands h

theorem closesAtEnd_of_not_fenced {token : Token} (h : token.kind.isFenced = false) :
    token.closesAtEnd = false := by
  unfold closesAtEnd
  split
  · next eq => simp [eq, Kind.isFenced] at h
  · rfl

theorem scan_unclosed {fence : Fence} {t : Text} (h : fence.close? t = none) (line : Nat) :
    scan line (some fence) t = ([⟨line, .fenceBody t, t⟩], some fence) := by
  rw [scan]
  split
  · rfl
  · next closed => simp [h] at closed

/-- The tokens of the end of a fence, up to its end tag. -/
def fenceEnd (line : Nat) (fence : Fence) (cut : Fence.Closing) : List Token :=
  let body := Text.trimEnd cut.before
  (if Text.isBlank body then [] else [⟨line, .fenceBody body, body⟩]) ++
    [⟨line, .fenceClose fence false, cut.tag⟩]

theorem scan_closed {fence : Fence} {t : Text} {cut : Fence.Closing}
    (h : fence.close? t = some cut) (line : Nat) :
    scan line (some fence) t =
      (fenceEnd line fence cut ++ (scan line none (Text.trimStart cut.after)).1,
        (scan line none (Text.trimStart cut.after)).2) := by
  rw [scan]
  split
  · next unclosed => simp [h] at unclosed
  · next closed =>
    rw [h] at closed
    cases closed
    rfl

theorem scan_unopened {t : Text} (h : (Segments.ofLine t).opener = none) (line : Nat) :
    scan line none t = (beforeOpener line t, none) := by
  rw [scan]
  split
  · rfl
  · next opened => simp [h] at opened

/-- The token that opens a fence, and the body of the fence on the same line. -/
def fenceStart (line : Nat) (fence : Fence) (raw : Text) : Token × Text :=
  let split := fence.argument (raw.drop (1 + fence.name.length))
  (⟨line, .fenceOpen fence split.1, raw⟩, split.2)

theorem scan_opened {t raw : Text} {fence : Fence}
    (h : (Segments.ofLine t).opener = some (fence, raw)) (line : Nat) :
    scan line none t =
      let start := fenceStart line fence raw
      if Text.isBlank start.2 then (beforeOpener line t ++ [start.1], some fence)
      else
        let later := scan line (some fence) (Text.trimStart start.2)
        (beforeOpener line t ++ start.1 :: later.1, later.2) := by
  rw [scan]
  split
  · next unopened => simp [h] at unopened
  · next opened =>
    rw [h] at opened
    cases opened
    rfl

theorem scan_leads (line : Nat) (fence : Option Fence) (t : Text) :
    Leads fence (scan line fence t).1 (scan line fence t).2 := by
  have front (t : Text) : Leads none (beforeOpener line t) none :=
    .of_outside fun token mem => (mem_beforeOpener mem).2
  fun_induction scan line fence t with
  | case1 t fence _ => exact .body rfl (.nil _)
  | case2 t fence cut _ body here later ih =>
    have before : Leads (some fence)
        (if Text.isBlank body then [] else [⟨line, .fenceBody body, body⟩]) (some fence) := by
      split
      · exact .nil _
      · exact .body rfl (.nil _)
    exact (before.append (.closed rfl (.nil none))).append ih
  | case3 t segments here _ => exact front t
  | case4 t segments here fence raw _ split start _ =>
    exact (front t).append (.opened rfl (.nil _))
  | case5 t segments here fence raw _ split start _ later ih =>
    exact (front t).append (.opened rfl ih)

theorem mem_scan {line : Nat} {fence : Option Fence} {t : Text} {token : Token}
    (h : token ∈ (scan line fence t).1) : token.line = line ∧ token.closesAtEnd = false := by
  have front {t : Text} (mem : token ∈ beforeOpener line t) :
      token.line = line ∧ token.closesAtEnd = false :=
    ⟨(mem_beforeOpener mem).1, closesAtEnd_of_not_fenced (mem_beforeOpener mem).2⟩
  fun_induction scan line fence t with
  | case1 t fence _ =>
    rw [List.mem_singleton.1 h]
    exact ⟨rfl, rfl⟩
  | case2 t fence cut _ body here later ih =>
    rcases List.mem_append.1 h with h | h
    · rcases List.mem_append.1 h with h | h
      · split at h
        · simp at h
        · rw [List.mem_singleton.1 h]
          exact ⟨rfl, rfl⟩
      · rw [List.mem_singleton.1 h]
        exact ⟨rfl, rfl⟩
    · exact ih h
  | case3 t segments here _ => exact front h
  | case4 t segments here fence raw _ split start _ =>
    rcases List.mem_append.1 h with h | h
    · exact front h
    · rw [List.mem_singleton.1 h]
      exact ⟨rfl, rfl⟩
  | case5 t segments here fence raw _ split start _ later ih =>
    rcases List.mem_append.1 h with h | h
    · exact front h
    · rcases List.mem_cons.1 h with rfl | h
      · exact ⟨rfl, rfl⟩
      · exact ih h

theorem ofLine_leads (line : Nat) (fence : Option Fence) (t : Text) :
    Leads fence (ofLine line fence t).1 (ofLine line fence t).2 := by
  unfold ofLine
  split
  · next blank =>
    have none : fence = none := by simp_all
    subst none
    exact .single rfl (.nil _)
  · exact scan_leads line fence t

theorem mem_ofLine {line : Nat} {fence : Option Fence} {t : Text} {token : Token}
    (h : token ∈ (ofLine line fence t).1) : token.line = line ∧ token.closesAtEnd = false := by
  unfold ofLine at h
  split at h
  · rw [List.mem_singleton.1 h]
    exact ⟨rfl, rfl⟩
  · exact mem_scan h

/-! ## All lines -/

/-- The tokens of lines that start at number `line`, and the fence that they leave open. -/
def written (line : Nat) (fence : Option Fence) : List Text → List Token × Option Fence
  | [] => ([], fence)
  | t :: rest =>
    let here := ofLine line fence t
    let later := written (line + 1) here.2 rest
    (here.1 ++ later.1, later.2)

theorem ofLines_append (line : Nat) (fence : Option Fence) (a b : List Text) :
    ofLines line fence (a ++ b) =
      (written line fence a).1 ++ ofLines (line + a.length) (written line fence a).2 b := by
  induction a generalizing line fence with
  | nil => rfl
  | cons t rest ih =>
    rw [List.cons_append, ofLines, ih, List.length_cons, Nat.add_right_comm, Nat.add_assoc]
    simp [written]

theorem written_leads (line : Nat) (fence : Option Fence) (lines : List Text) :
    Leads fence (written line fence lines).1 (written line fence lines).2 := by
  induction lines generalizing line fence with
  | nil => exact .nil fence
  | cons t rest ih => exact (ofLine_leads line fence t).append (ih _ _)

theorem mem_written {line : Nat} {fence : Option Fence} {lines : List Text} {token : Token}
    (h : token ∈ (written line fence lines).1) :
    line ≤ token.line ∧ token.line < line + lines.length ∧ token.closesAtEnd = false := by
  induction lines generalizing line fence with
  | nil => simp [written] at h
  | cons t rest ih =>
    rw [List.length_cons]
    rcases List.mem_append.1 h with here | later
    · have := mem_ofLine here
      exact ⟨by omega, by omega, this.2⟩
    · have := ih later
      exact ⟨by omega, by omega, this.2.2⟩

theorem written_ordered (line : Nat) (fence : Option Fence) (lines : List Text) :
    (written line fence lines).1.Pairwise fun a b => a.line ≤ b.line := by
  induction lines generalizing line fence with
  | nil => exact .nil
  | cons t rest ih =>
    apply List.pairwise_append.2
    constructor
    · apply List.pairwise_of_forall_mem_list
      intro a ha b hb
      exact Nat.le_of_eq ((mem_ofLine ha).1.trans (mem_ofLine hb).1.symm)
    · constructor
      · exact ih _ _
      · intro a ha b hb
        have := (mem_ofLine ha).1
        have := (mem_written hb).1
        omega

theorem ofLines_leads (line : Nat) (fence : Option Fence) (lines : List Text) :
    Leads fence (ofLines line fence lines) none := by
  rw [← List.append_nil lines, ofLines_append]
  apply (written_leads line fence lines).append
  cases (written line fence lines).2 with
  | none => exact .nil none
  | some fence => exact .closed rfl (.nil none)

/-- Where a token stands among those of all lines: only the end of a fence that is left open stands
below the last line, and nothing after it. -/
theorem ofLines_position {line : Nat} {fence : Option Fence} {lines : List Text}
    {before after : List Token} {token : Token}
    (h : ofLines line fence lines = before ++ token :: after) :
    (token.closesAtEnd = true → after = [] ∧ token.line = line + lines.length) ∧
      (token.closesAtEnd = false → token.line < line + lines.length) := by
  have inside (mem : token ∈ (written line fence lines).1) :
      (token.closesAtEnd = true → after = [] ∧ token.line = line + lines.length) ∧
        (token.closesAtEnd = false → token.line < line + lines.length) := by
    obtain ⟨-, below, notEnd⟩ := mem_written mem
    simp [notEnd, below]
  rw [← List.append_nil lines, ofLines_append] at h
  cases left : (written line fence lines).2 with
  | none =>
    rw [left, ofLines, List.append_nil] at h
    exact inside (by simp [h])
  | some fence =>
    rw [left, ofLines] at h
    rcases List.eq_nil_or_concat' after with rfl | ⟨init, last, rfl⟩
    · obtain ⟨-, same⟩ := List.append_inj' h rfl
      cases same
      simp [closesAtEnd]
    · rw [← List.cons_append, ← List.append_assoc] at h
      obtain ⟨same, -⟩ := List.append_inj' h rfl
      exact inside (by simp [same])

theorem ofLines_ordered (line : Nat) (fence : Option Fence) (lines : List Text) :
    (ofLines line fence lines).Pairwise fun a b => a.line ≤ b.line := by
  rw [← List.append_nil lines, ofLines_append]
  apply List.pairwise_append.2
  constructor
  · exact written_ordered line fence lines
  · cases (written line fence lines).2 with
    | none => simp [ofLines]
    | some fence =>
      constructor
      · simp [ofLines]
      · intro a ha b hb
        have := (mem_written ha).2.1
        simp only [ofLines, List.mem_singleton] at hb
        subst hb
        exact Nat.le_of_lt this

/-! ## Line numbers -/

/-- The same token `n` lines further down. -/
def shift (n : Nat) (token : Token) : Token := { token with line := token.line + n }

theorem ofText_shift (n line : Nat) (t : Text) :
    ofText (line + n) t = (ofText line t).map (shift n) := by
  unfold ofText
  split <;> rfl

theorem ofCommands_shift (n line column : Nat) (commands : List CommandText) :
    ofCommands (line + n) column commands = (ofCommands line column commands).map (shift n) := by
  induction commands generalizing column with
  | nil => rfl
  | cons command rest ih =>
    rw [ofCommands, ofCommands, ih]
    rfl

theorem beforeOpener_shift (n line : Nat) (t : Text) :
    beforeOpener (line + n) t = (beforeOpener line t).map (shift n) := by
  rw [beforeOpener, beforeOpener, ofText_shift, ofCommands_shift, List.map_append]

theorem fenceEnd_shift (n line : Nat) (fence : Fence) (cut : Fence.Closing) :
    fenceEnd (line + n) fence cut = (fenceEnd line fence cut).map (shift n) := by
  unfold fenceEnd
  dsimp only
  split <;> rfl

theorem scan_shift (n line : Nat) (fence : Option Fence) (t : Text) :
    scan (line + n) fence t = ((scan line fence t).1.map (shift n), (scan line fence t).2) := by
  fun_induction scan line fence t with
  | case1 t fence unclosed => exact scan_unclosed unclosed (line + n)
  | case2 t fence cut closed body here later ih =>
    rw [scan_closed closed, ih, fenceEnd_shift, List.map_append]
    rfl
  | case3 t segments here unopened =>
    rw [scan_unopened unopened, beforeOpener_shift]
    rfl
  | case4 t segments here fence raw opened split start blank =>
    rw [scan_opened opened, beforeOpener_shift, List.map_append]
    exact if_pos blank
  | case5 t segments here fence raw opened split start body later ih =>
    rw [scan_opened opened, beforeOpener_shift, List.map_append]
    dsimp only [fenceStart]
    rw [if_neg body, ih]
    rfl

theorem ofLine_shift (n line : Nat) (fence : Option Fence) (t : Text) :
    ofLine (line + n) fence t = ((ofLine line fence t).1.map (shift n), (ofLine line fence t).2) := by
  unfold ofLine
  split
  · rfl
  · exact scan_shift n line fence t

theorem ofLines_shift (n line : Nat) (fence : Option Fence) (lines : List Text) :
    ofLines (line + n) fence lines = (ofLines line fence lines).map (shift n) := by
  induction lines generalizing line fence with
  | nil => cases fence <;> rfl
  | cons t rest ih =>
    rw [ofLines, ofLines, ofLine_shift, Nat.add_right_comm, ih, List.map_append]

end Token

/-! ## Reading token by token -/

namespace Tokenizer

/-- One call after another hands out `tokens`, and the next call nothing. -/
inductive HandsOut : Tokenizer → List Token → Prop
  | done {s : Tokenizer} (nothing : s.next.1 = none) : HandsOut s []
  | more {s : Tokenizer} {token : Token} {rest : List Token} (here : s.next.1 = some token)
      (later : HandsOut s.next.2 rest) : HandsOut s (token :: rest)

theorem readLine_remaining (lines : List Text) (line : Nat) (fence : Option Fence)
    (unread : List Text) :
    Token.ofLines line fence unread =
      match readLine lines line fence unread with
      | (some token, later) => token :: later.remaining
      | (none, _) => [] := by
  induction unread generalizing line fence with
  | nil => cases fence <;> rfl
  | cons t rest ih =>
    rw [readLine, Token.ofLines]
    cases here : (Token.ofLine line fence t).1 with
    | nil => exact ih _ _
    | cons token pending => rfl

/-- A call hands out the first of the tokens that remain. -/
theorem next_remaining (s : Tokenizer) :
    s.remaining =
      match s.next with
      | (some token, later) => token :: later.remaining
      | (none, _) => [] := by
  rw [remaining, next]
  cases s.pending with
  | nil => exact readLine_remaining s.lines s.line s.fence s.unread
  | cons token pending => rfl

theorem handsOut_remaining (s : Tokenizer) : s.HandsOut s.remaining := by
  generalize same : s.remaining = tokens
  induction tokens generalizing s with
  | nil =>
    rw [next_remaining] at same
    split at same
    · cases same
    · next nothing => exact .done (by rw [nothing])
  | cons token rest ih =>
    rw [next_remaining] at same
    split at same
    · next first later here =>
      cases same
      apply HandsOut.more
      · rw [here]
      · rw [here]
        exact ih later rfl
    · cases same

end Tokenizer

/-! ## Comments -/

theorem ControlCharacter.find?_eq_none_iff {line : Nat} {lines : List Text} :
    find? line lines = none ↔
      ∀ t ∈ lines, ∀ c ∈ t, Text.isControl c = true → c = '\t' := by
  induction lines generalizing line with
  | nil => simp [find?]
  | cons t rest ih =>
    have later : find? (line + 1) rest = none ↔ _ := ih
    rw [find?, List.forall_mem_cons, ← later]
    split
    · next found h =>
      have bad := List.find?_some h
      simp only [reduceCtorEq, false_iff, not_and]
      intro clean
      have := clean found (List.mem_of_find?_eq_some h)
      simp_all
    · next h =>
      simpa using fun later => List.find?_eq_none.1 h

/-- The tokens of a comment are single tokens and whole fences in turn. Their line numbers never
decrease, and they are numbers of lines, but for the end of a fence that the comment leaves open:
that is the last token of all. -/
theorem tokens_obey_fences {lines : List Text} {s : Tokenizer}
    (accepted : Tokenizer.ofLines lines = .ok s) :
    ∃ tokens, tokenize lines = .ok tokens ∧ s.HandsOut tokens ∧ Token.WholeFences tokens ∧
      (∀ before token after, tokens = before ++ token :: after →
        (token.closesAtEnd = true → after = [] ∧ token.line = lines.length) ∧
          (token.closesAtEnd = false → token.line < lines.length)) ∧
      tokens.Pairwise fun a b => a.line ≤ b.line := by
  unfold Tokenizer.ofLines at accepted
  split at accepted
  · cases accepted
  · next clean =>
    cases accepted
    use Token.ofLines 0 none lines
    constructor
    · rw [tokenize, clean]
    constructor
    · exact (Tokenizer.start lines).handsOut_remaining
    constructor
    · exact (Token.ofLines_leads 0 none lines).wholeFences rfl
    constructor
    · intro before token after same
      simpa using Token.ofLines_position same
    · exact Token.ofLines_ordered 0 none lines

def twoFences : List Text := ["text @code x @endcode @dot".toList, "raw".toList]

theorem twoFences_obeyed :
    Tokenizer.ofLines twoFences = .ok (.start twoFences) ∧
      ∃ tokens, tokenize twoFences = .ok tokens ∧
        tokens.map Token.line = [0, 0, 0, 0, 0, 1, 2] ∧ Token.WholeFences tokens := by
  have accepted : Tokenizer.ofLines twoFences = .ok (.start twoFences) := rfl
  have lines : (Token.ofLines 0 none twoFences).map Token.line = [0, 0, 0, 0, 0, 1, 2] := by
    decide +kernel
  obtain ⟨tokens, read, -, fences, -⟩ := tokens_obey_fences accepted
  have same : tokenize twoFences = .ok (Token.ofLines 0 none twoFences) := rfl
  rw [same] at read
  cases read
  exact ⟨accepted, _, same, lines, fences⟩

/-- What follows lines that leave no fence open is read as it is read alone, with the line numbers
moved. -/
theorem tokenize_append {a b : List Text}
    (clean : ∀ t ∈ a ++ b, ∀ c ∈ t, Text.isControl c = true → c = '\t') :
    ∃ before after, tokenize a = .ok before ∧ tokenize b = .ok after ∧
      ((∀ token ∈ before, token.closesAtEnd = false) →
        tokenize (a ++ b) = .ok (before ++ after.map (Token.shift a.length))) := by
  have accepted {lines : List Text} (part : ∀ t ∈ lines, t ∈ a ++ b) :
      tokenize lines = .ok (Token.ofLines 0 none lines) := by
    have none : ControlCharacter.find? 0 lines = none :=
      ControlCharacter.find?_eq_none_iff.2 fun t mem => clean t (part t mem)
    rw [tokenize, none]
  use Token.ofLines 0 none a, Token.ofLines 0 none b
  constructor
  · exact accepted fun t mem => List.mem_append_left b mem
  constructor
  · exact accepted fun t mem => List.mem_append_right a mem
  · intro closed
    have left : (Token.written 0 none a).2 = none := by
      cases left : (Token.written 0 none a).2 with
      | none => rfl
      | some fence =>
        have ends := Token.ofLines_append 0 none a []
        rw [List.append_nil, left, Token.ofLines] at ends
        have := closed ⟨0 + a.length, .fenceClose fence true, []⟩ (by simp [ends])
        simp [Token.closesAtEnd] at this
    have alone : Token.ofLines 0 none a = (Token.written 0 none a).1 := by
      have ends := Token.ofLines_append 0 none a []
      rwa [List.append_nil, left, Token.ofLines, List.append_nil] at ends
    rw [accepted fun t mem => mem, Token.ofLines_append, left, alone, Token.ofLines_shift]

theorem twoFences_append :
    ∃ before after, tokenize ["@code x".toList, "@endcode @li y".toList] = .ok before ∧
      tokenize twoFences = .ok after ∧
        tokenize (["@code x".toList, "@endcode @li y".toList] ++ twoFences) =
          .ok (before ++ after.map (Token.shift 2)) := by
  have closed : ∀ token ∈ Token.ofLines 0 none ["@code x".toList, "@endcode @li y".toList],
      token.closesAtEnd = false := by decide +kernel
  obtain ⟨before, after, first, second, both⟩ := tokenize_append
    (a := ["@code x".toList, "@endcode @li y".toList]) (b := twoFences)
    (by simp [twoFences, Text.isControl])
  have same : tokenize ["@code x".toList, "@endcode @li y".toList] =
      .ok (Token.ofLines 0 none ["@code x".toList, "@endcode @li y".toList]) := rfl
  rw [same] at first
  cases first
  exact ⟨_, after, same, second, both closed⟩

end DocComment
