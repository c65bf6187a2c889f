import DocComment.Proofs.Inline.Grown

/-!
# Reading moves on

A reader that keeps its place and the levels that are open reads a text as the levels read it. A
step takes it further, or it ends a level and stays before a tag that a level around it waits for.
So one tag is read at most once on each open level, and the outermost level reads everything.
-/

set_option autoImplicit false

namespace DocComment.Inline

/-! ## How levels end -/

/-- The tokens that end a level: its closing tag, or its delimiter behind a word. -/
def Closer.IsEndedBy : Closer → Lexeme → Prop
  | .finish, _ => False
  | .tag name, token => token.closes name = true
  | .delimiter kind, token => token.kind = kind ∧ token.glued = true

/-- How a level ends that reads `tokens` inside levels that end with `outer`: behind a token of its
own, with the text, or before a tag that another level waits for. -/
inductive Ends (outer : List Closer) (closer : Closer) : List Lexeme → EndedLevel → Prop
  | closed (read : List Lexeme) {mark : Lexeme} {rest : List Lexeme} {nodes : List Node}
    (own : closer.IsEndedBy mark) : Ends outer closer (read ++ mark :: rest) ⟨nodes, true, rest⟩
  | finished {tokens : List Lexeme} {nodes : List Node} :
    Ends outer closer tokens ⟨nodes, false, []⟩
  | left (read : List Lexeme) {tag : Lexeme} {rest : List Lexeme} {nodes : List Node} {name : Text}
    (closes : tag.closes name = true) (awaited : .tag name ∈ outer) (other : closer ≠ .tag name) :
    Ends outer closer (read ++ tag :: rest) ⟨nodes, false, tag :: rest⟩

section

variable {outer : List Closer} {closer : Closer}

theorem Ends.behind {tokens : List Lexeme} {level : EndedLevel} (h : Ends outer closer tokens level)
    (front : List Lexeme) : Ends outer closer (front ++ tokens) level := by
  cases h with
  | closed read own =>
    rw [← List.append_assoc]
    exact .closed _ own
  | finished => exact .finished
  | left read closes awaited other =>
    rw [← List.append_assoc]
    exact .left _ closes awaited other

theorem Ends.rest_suffix {tokens : List Lexeme} {level : EndedLevel}
    (h : Ends outer closer tokens level) : level.rest <:+ tokens := by
  cases h with
  | @closed read mark rest => exact ⟨read ++ [mark], by simp⟩
  | finished => exact List.nil_suffix
  | left read => exact ⟨read, rfl⟩

/-- A token ends a level only if it is the level's own, and leaves it only for another one. -/
theorem step_ends (out : Output) (token : Lexeme) (rest : List Lexeme) :
    (step outer closer out token rest = .close → closer.IsEndedBy token) ∧
      (step outer closer out token rest = .leave →
        ∃ name, token.closes name = true ∧ .tag name ∈ outer ∧ closer ≠ .tag name) := by
  unfold step
  split
  case h_7 | h_8 | h_13 => split <;> simp
  case h_9 | h_10 | h_11 =>
    split_ifs with ends
    · obtain ⟨rfl, glued⟩ := ends
      exact ⟨fun _ => ⟨rfl, glued⟩, nofun⟩
    · simp
    · simp
  case h_12 kind =>
    split
    · simp
    next tag read =>
      have opening := openingTag_stays out token.text tag rest
      split_ifs with closing
      · have closes : token.closes tag.name = true := by
          simp [Lexeme.closes, kind, read, Tag.closes, closing]
        unfold closingTag
        split_ifs with own awaited
        · subst own
          exact ⟨fun _ => closes, nofun⟩
        · exact ⟨nofun, fun _ => ⟨tag.name, closes, by simpa using awaited, own⟩⟩
        · simp
      · exact ⟨fun h => absurd h opening.1, fun h => absurd h opening.2⟩
  all_goals simp

theorem Reads.ends {out : Output} {tokens : List Lexeme} {level : EndedLevel}
    (reads : Reads outer closer out tokens level) : Ends outer closer tokens level := by
  induction reads with
  | finish => exact .finished
  | close here => exact .closed [] ((step_ends _ _ _).1 here)
  | leave here =>
    obtain ⟨name, closes, awaited, other⟩ := (step_ends _ _ _).2 here
    exact .left [] closes awaited other
  | @proceed _ _ _ _ token rest taken _ _ _ ih =>
    have further := ih.behind (token :: rest.take taken)
    rwa [List.cons_append, List.take_append_drop] at further
  | @nest _ _ _ token _ _ _ _ _ _ _ _ ihInside ihLater =>
    obtain ⟨read, same⟩ := ihInside.rest_suffix
    have further := ihLater.behind (token :: read)
    rwa [List.cons_append, same] at further

end

/-! ## A reader with open levels -/

/-- A level with another one open inside it. -/
structure OpenLevel where
  closer : Closer
  out : Output
  /-- What opens the level inside. -/
  opener : Text
  span : Span

structure LevelReader where
  /-- How many tokens are behind it. -/
  position : Nat
  closer : Closer
  out : Output
  /-- The levels around the one that is read, from the innermost on. -/
  outer : List OpenLevel

namespace LevelReader

def start : LevelReader := ⟨0, .finish, .empty, []⟩

/-- What the levels around wait for. -/
def awaited (r : LevelReader) : List Closer := r.outer.map OpenLevel.closer

/-- Goes on with the level around the one that ends; there is none around the outermost. -/
def endLevel (r : LevelReader) (closed : Bool) (position : Nat) : Option LevelReader :=
  match r.outer with
  | [] => none
  | level :: outer =>
    some ⟨position, level.closer,
      level.out.addSpan level.opener level.span ⟨r.out.toNodes, closed, []⟩, outer⟩

/-- Reads one token. -/
def next (tokens : List Lexeme) (r : LevelReader) : Option LevelReader :=
  match tokens.drop r.position with
  | [] => r.endLevel false r.position
  | token :: rest =>
    match step r.awaited r.closer r.out token rest with
    | .close => r.endLevel true (r.position + 1)
    | .leave => r.endLevel false r.position
    | .proceed out taken => some { r with position := r.position + 1 + taken, out }
    | .nest inner span =>
      some ⟨r.position + 1, inner, .empty, ⟨r.closer, r.out, token.text, span⟩ :: r.outer⟩

/-- Where the reader is after some steps, if it gets that far. -/
def after (tokens : List Lexeme) (r : LevelReader) : Nat → Option LevelReader
  | 0 => some r
  | n + 1 => (r.after tokens n).bind (next tokens)

theorem after_add (tokens : List Lexeme) (r : LevelReader) (m n : Nat) :
    r.after tokens (m + n) = (r.after tokens m).bind fun middle => middle.after tokens n := by
  induction n with
  | zero => simp [after]
  | succ n ih =>
    rw [← Nat.add_assoc, after, ih, Option.bind_assoc]
    rfl

/-! ## Steps -/

/-- What a step can do: go on with the level, open one inside it, or end it behind a token or where
it stands, with the text or before a tag that is waited for. -/
inductive Moves (tokens : List Lexeme) (r : LevelReader) : LevelReader → Prop
  | proceed (out : Output) {taken : Nat} (within : r.position + 1 + taken ≤ tokens.length) :
    Moves tokens r ⟨r.position + 1 + taken, r.closer, out, r.outer⟩
  | nest (inner : Closer) (opener : Text) (span : Span) (within : r.position < tokens.length) :
    Moves tokens r ⟨r.position + 1, inner, .empty, ⟨r.closer, r.out, opener, span⟩ :: r.outer⟩
  | close (out : Output) {level : OpenLevel} {outer : List OpenLevel}
    (around : r.outer = level :: outer) (within : r.position < tokens.length) :
    Moves tokens r ⟨r.position + 1, level.closer, out, outer⟩
  | stay (out : Output) {level : OpenLevel} {outer : List OpenLevel}
    (around : r.outer = level :: outer)
    (awaited : ∀ token ∈ tokens[r.position]?, ∃ name, token.closes name = true ∧
      .tag name ∈ r.awaited) :
    Moves tokens r ⟨r.position, level.closer, out, outer⟩

variable {tokens : List Lexeme} {r r' : LevelReader}

theorem endLevel_eq_some {closed : Bool} {position : Nat}
    (h : r.endLevel closed position = some r') :
    ∃ level outer out, r.outer = level :: outer ∧ r' = ⟨position, level.closer, out, outer⟩ := by
  unfold endLevel at h
  split at h
  · cases h
  next level outer around =>
    cases h
    exact ⟨level, outer, _, around, rfl⟩

theorem drop_eq_cons {position : Nat} {token : Lexeme} {rest : List Lexeme}
    (h : tokens.drop position = token :: rest) :
    tokens[position]? = some token ∧ rest = tokens.drop (position + 1) ∧
      tokens.length = position + 1 + rest.length := by
  have here : tokens[position]? = some token := by
    rw [← List.head?_drop, h]
    rfl
  have later : rest = tokens.drop (position + 1) := by
    rw [← List.tail_drop, h]
    rfl
  refine ⟨here, later, ?_⟩
  have := (List.getElem?_eq_some_iff.mp here).1
  rw [later, List.length_drop]
  omega

theorem next_moves (h : r.next tokens = some r') : r.Moves tokens r' := by
  unfold next at h
  split at h
  next nothing =>
    obtain ⟨level, outer, out, around, rfl⟩ := endLevel_eq_some h
    refine .stay out around fun token here => ?_
    rw [← List.head?_drop, nothing] at here
    cases here
  next token rest more =>
    obtain ⟨here, later, size⟩ := drop_eq_cons more
    split at h
    next =>
      obtain ⟨level, outer, out, around, rfl⟩ := endLevel_eq_some h
      exact .close out around (by omega)
    next leaves =>
      obtain ⟨level, outer, out, around, rfl⟩ := endLevel_eq_some h
      obtain ⟨name, closes, awaited, -⟩ := (step_ends _ _ _).2 leaves
      refine .stay out around fun other there => ?_
      obtain rfl : token = other := Option.some.inj (here.symm.trans there)
      exact ⟨name, closes, awaited⟩
    next out taken proceeds =>
      cases h
      have := (adds_step proceeds).within
      exact .proceed out (by omega)
    next inner span _ =>
      cases h
      exact .nest inner token.text span (by omega)

/-! ## Runs -/

/-- What a later state is to an earlier one: further on, or before the same token on a level further
out, which or whose surroundings wait for that token. -/
inductive Later (tokens : List Lexeme) (r r' : LevelReader) : Prop
  | ahead (further : r.position < r'.position)
  | again (same : r'.position = r.position) (outside : r'.outer <:+ r.outer)
    (fewer : r'.outer.length < r.outer.length)
    (awaited : ∀ token ∈ tokens[r.position]?, ∃ name, token.closes name = true ∧
      .tag name ∈ r'.closer :: r'.awaited)

theorem Moves.later (moves : r.Moves tokens r') : r.Later tokens r' := by
  cases moves with
  | proceed | nest | close =>
    apply Later.ahead
    dsimp only
    omega
  | @stay out level outer around awaited =>
    rw [LevelReader.awaited, around] at awaited
    refine .again rfl ?_ ?_ awaited
    · rw [around]
      exact List.suffix_cons level outer
    · simp [around]

theorem Later.trans {r'' : LevelReader} (first : r.Later tokens r') (second : r'.Later tokens r'') :
    r.Later tokens r'' := by
  cases first with
  | ahead further =>
    cases second with
    | ahead further' => exact .ahead (further.trans further')
    | again same' => exact .ahead (same' ▸ further)
  | again same outside fewer =>
    cases second with
    | ahead further' => exact .ahead (same ▸ further')
    | again same' outside' fewer' awaited' =>
      exact .again (same'.trans same) (outside'.trans outside) (fewer'.trans fewer)
        (same ▸ awaited')

theorem after_later {n : Nat} (h : r.after tokens (n + 1) = some r') : r.Later tokens r' := by
  induction n generalizing r' with
  | zero => exact (next_moves (by simpa [after] using h)).later
  | succ n ih =>
    obtain ⟨middle, first, second⟩ := Option.bind_eq_some_iff.mp h
    exact (ih first).trans (next_moves second).later

/-- The number of steps that may follow: every token is read once, and once more for every level
that has been opened. -/
def budget (tokens : List Lexeme) (r : LevelReader) : Nat :=
  2 * (tokens.length - r.position) + r.outer.length

theorem Moves.within (moves : r.Moves tokens r') (within : r.position ≤ tokens.length) :
    r'.position ≤ tokens.length := by
  cases moves <;> dsimp only <;> omega

theorem Moves.budget_lt (moves : r.Moves tokens r') (within : r.position ≤ tokens.length) :
    r'.budget tokens < r.budget tokens := by
  unfold budget
  cases moves with
  | proceed | nest =>
    simp only [List.length_cons]
    omega
  | close _ around | stay _ around =>
    simp only [around, List.length_cons]
    omega

theorem after_budget {n : Nat} (within : r.position ≤ tokens.length)
    (h : r.after tokens n = some r') :
    r'.position ≤ tokens.length ∧ n + r'.budget tokens ≤ r.budget tokens := by
  induction n generalizing r' with
  | zero =>
    cases h
    exact ⟨within, by omega⟩
  | succ n ih =>
    obtain ⟨middle, first, second⟩ := Option.bind_eq_some_iff.mp h
    obtain ⟨inside, spent⟩ := ih first
    have moves := next_moves second
    have less := moves.budget_lt inside
    exact ⟨moves.within inside, by omega⟩

/-! ## The levels read by themselves -/

/-- The level that the reader stands on comes to `level`. A closer of its own is the last token that
is read of it, and what `level` leaves unread is still before the reader when it ends. -/
def Finishes (tokens : List Lexeme) (r : LevelReader) (level : EndedLevel) : Prop :=
  ∃ n last, r.after tokens n = some last ∧ last.closer = r.closer ∧ last.outer = r.outer ∧
    last.out.toNodes = level.nodes ∧
    last.position + level.closed.toNat + level.rest.length = tokens.length ∧
    last.next tokens = last.endLevel level.closed (last.position + level.closed.toNat)

theorem Finishes.of_after {middle : LevelReader} {level : EndedLevel}
    (h : middle.Finishes tokens level) {k : Nat} (run : r.after tokens k = some middle)
    (closer : middle.closer = r.closer) (outer : middle.outer = r.outer) :
    r.Finishes tokens level := by
  obtain ⟨n, last, further, closer', outer', ends⟩ := h
  refine ⟨k + n, last, ?_, closer'.trans closer, outer'.trans outer, ends⟩
  rw [after_add, run]
  exact further

theorem after_one (h : r.next tokens = some r') : r.after tokens 1 = some r' := by
  simp [after, h]

theorem reads_finishes {closers : List Closer} {closer : Closer} {out : Output}
    {unread : List Lexeme} {level : EndedLevel} (reads : Reads closers closer out unread level)
    {position : Nat} {outer : List OpenLevel} (place : tokens.drop position = unread)
    (within : position ≤ tokens.length) (around : outer.map OpenLevel.closer = closers) :
    Finishes tokens ⟨position, closer, out, outer⟩ level := by
  induction reads generalizing position outer with
  | finish _ closer out =>
    have last : position = tokens.length := by
      have := List.drop_eq_nil_iff.mp place
      omega
    refine ⟨0, _, rfl, rfl, rfl, rfl, last, ?_⟩
    simp only [next, place]
    rfl
  | close here =>
    obtain ⟨-, -, size⟩ := drop_eq_cons place
    subst around
    refine ⟨0, _, rfl, rfl, rfl, rfl, size.symm, ?_⟩
    simp only [next, place, awaited, here]
    rfl
  | @leave _ _ _ token rest here =>
    obtain ⟨-, -, size⟩ := drop_eq_cons place
    subst around
    refine ⟨0, _, rfl, rfl, rfl, rfl, ?_, ?_⟩
    · simp only [Bool.toNat_false, List.length_cons]
      omega
    · simp only [next, place, awaited, here]
      rfl
  | @proceed _ closer out moved token rest taken _ here _ ih =>
    obtain ⟨-, later, size⟩ := drop_eq_cons place
    have taken_le := (adds_step here).within
    have unread : tokens.drop (position + 1 + taken) = rest.drop taken := by
      rw [later, List.drop_drop]
    subst around
    have moves : next tokens ⟨position, closer, out, outer⟩ =
        some ⟨position + 1 + taken, closer, moved, outer⟩ := by
      simp only [next, place, awaited, here]
    exact (ih unread (by omega) rfl).of_after (after_one moves) rfl rfl
  | @nest _ closer out token rest inner span body _ here inside _ ihInside ihLater =>
    obtain ⟨-, later, size⟩ := drop_eq_cons place
    subst around
    have opens : next tokens ⟨position, closer, out, outer⟩ =
        some ⟨position + 1, inner, .empty, ⟨closer, out, token.text, span⟩ :: outer⟩ := by
      simp only [next, place, awaited, here]
    have opened : Finishes tokens
        ⟨position + 1, inner, .empty, ⟨closer, out, token.text, span⟩ :: outer⟩ body :=
      ihInside later.symm (by omega) rfl
    obtain ⟨n, last, run, -, outside, nodes, unread, ends⟩ := opened
    have left : tokens.drop (last.position + body.closed.toNat) = body.rest := by
      have suffix := inside.ends.rest_suffix.trans (later ▸ List.drop_suffix (position + 1) tokens)
      rw [List.suffix_iff_eq_drop.mp suffix]
      congr 1
      omega
    have resumes : last.next tokens = some
        ⟨last.position + body.closed.toNat, closer, out.addSpan token.text span body, outer⟩ := by
      rw [ends, endLevel, outside, nodes]
      rfl
    refine (ihLater left (by omega) rfl).of_after (k := 1 + n + 1) ?_ rfl rfl
    rw [after, after_add, after_one opens, Option.bind_some, run, Option.bind_some, resumes]

theorem finishes_readLevel (tokens : List Lexeme) {r : LevelReader}
    (within : r.position ≤ tokens.length) :
    r.Finishes tokens (readLevel r.awaited r.closer r.out (tokens.drop r.position)).1 :=
  reads_finishes (reads_readLevel _ _ _ _) rfl within rfl

end LevelReader

open LevelReader

/-- Reading a text takes at most two steps for each of its tokens and never passes the last of them.
Every level comes to an end: behind its own closer, with the text, or before one closing tag that a
level around it waits for, and each time that this tag is read again fewer levels are open. Where
the outermost level ends, everything has been read, and what is on it then is what the text reads
as. -/
theorem outermost_level_reads_all (t : Text) :
    let tokens := Lexeme.ofTokens false (InlineToken.lex t)
    let state := LevelReader.start.after tokens
    (∃ n ≤ 2 * tokens.length, ∃ last, state n = some last ∧ last.next tokens = none ∧
        last.outer = [] ∧ last.position = tokens.length ∧ parse t = trimEnds last.out.toNodes) ∧
      (∀ n r, state n = some r → r.position ≤ tokens.length ∧
        ∃ level, r.Finishes tokens level ∧
          Ends r.awaited r.closer (tokens.drop r.position) level) ∧
      ∀ i j r r', i < j → state i = some r → state j = some r' → r.Later tokens r' := by
  intro tokens state
  have zero : LevelReader.start.position ≤ tokens.length := Nat.zero_le _
  have inside {n : Nat} {r : LevelReader} (run : state n = some r) := after_budget zero run
  refine ⟨?_, fun n r run => ?_, fun i j r r' order first second => ?_⟩
  · have whole : Finishes tokens .start (readLevel [] .finish .empty tokens).1 :=
      finishes_readLevel tokens zero
    obtain ⟨unclosed, nothing⟩ := (reads_readLevel [] .finish .empty tokens).rest_eq_nil
    obtain ⟨n, last, run, -, outermost, nodes, unread, ends⟩ := whole
    have spent := (inside run).2
    simp only [budget, LevelReader.start, List.length_nil] at spent
    refine ⟨n, by omega, last, run, ?_, outermost, ?_, ?_⟩
    · rw [ends, endLevel, outermost]
      rfl
    · simpa [unclosed, nothing] using unread
    · rw [nodes]
      rfl
  · have within := (inside run).1
    exact ⟨within, _, finishes_readLevel tokens within, (reads_readLevel _ _ _ _).ends⟩
  · obtain ⟨k, rfl⟩ : ∃ k, j = i + (k + 1) := ⟨j - i - 1, by omega⟩
    simp only [state] at first second
    rw [after_add, first, Option.bind_some] at second
    exact after_later second

/-- The closing tag is read on the level of the star, which it leaves, and again on its own. -/
example :
    let tokens := Lexeme.ofTokens false (InlineToken.lex "<u>*a</u>*".toList)
    (List.range 7).map (fun n => (LevelReader.start.after tokens n).map fun r =>
      (r.position, r.outer.length)) =
      [some (0, 0), some (1, 1), some (2, 2), some (3, 2), some (3, 1), some (4, 0),
        some (5, 0)] := by
  decide +kernel

end DocComment.Inline
