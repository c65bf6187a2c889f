import DocComment.Proofs.Line.Stream

/-!
# Sending a tokenizer back

A tokenizer can be sent back to its first line at any time, also in the middle of a line or of a
fence. Whatever it has been asked before, from there on it hands out what a new one does: what it
has handed out and what remains are always the tokens of its lines.
-/

set_option autoImplicit false

namespace DocComment.Tokenizer

/-- What a tokenizer can be asked. -/
inductive Call where
  | next
  | restart
  deriving DecidableEq

/-- A tokenizer that has been asked some things, and the tokens that it has handed out since it was
made or last sent back. -/
structure Session where
  tokenizer : Tokenizer
  handedOut : List Token
  deriving DecidableEq

namespace Session

/-- A tokenizer that has been asked nothing. -/
def new (s : Tokenizer) : Session := ⟨s, []⟩

def call (s : Session) : Call → Session
  | .next => ⟨s.tokenizer.next.2, s.handedOut ++ s.tokenizer.next.1.toList⟩
  | .restart => ⟨s.tokenizer.restart, []⟩

/-- One call after another. -/
def run (s : Session) (calls : List Call) : Session := calls.foldl call s

/-- What the next call would hand out. -/
def answer (s : Session) : Option Token := s.tokenizer.next.1

end Session

/-! ## What a call leaves -/

theorem readLine_after (lines : List Text) (line : Nat) (fence : Option Fence)
    (unread : List Text) :
    (readLine lines line fence unread).2.lines = lines ∧
      ((readLine lines line fence unread).1 = none →
        (readLine lines line fence unread).2.remaining = []) := by
  induction unread generalizing line fence with
  | nil => exact ⟨rfl, fun _ => rfl⟩
  | cons t rest ih =>
    rw [readLine]
    cases (Token.ofLine line fence t).1 with
    | nil => exact ih _ _
    | cons token pending => exact ⟨rfl, fun nothing => by cases nothing⟩

/-- A call never loses a line. -/
theorem lines_next (s : Tokenizer) : s.next.2.lines = s.lines := by
  unfold next
  cases s.pending with
  | nil => exact (readLine_after s.lines s.line s.fence s.unread).1
  | cons token pending => rfl

/-- Nothing remains where nothing has been handed out. -/
theorem remaining_of_none {s : Tokenizer} (nothing : s.next.1 = none) :
    s.next.2.remaining = [] := by
  unfold next at nothing ⊢
  cases pending : s.pending with
  | nil =>
    rw [pending] at nothing
    exact (readLine_after s.lines s.line s.fence s.unread).2 nothing
  | cons token rest =>
    rw [pending] at nothing
    cases nothing

/-- What a call hands out goes from the front of what remains. -/
theorem remaining_next (s : Tokenizer) : s.next.1.toList ++ s.next.2.remaining = s.remaining := by
  rw [next_remaining s]
  cases handed : s.next.1 with
  | none =>
    rw [remaining_of_none handed]
    split
    next some => simp [some] at handed
    · rfl
  | some token =>
    split
    next some =>
      rw [some] at handed ⊢
      cases handed
      rfl
    next none => simp [none] at handed

theorem next_eq_none_iff (s : Tokenizer) : s.next.1 = none ↔ s.remaining = [] := by
  constructor
  · intro nothing
    rw [← remaining_next, nothing, remaining_of_none nothing]
    rfl
  · intro nothing
    rw [← remaining_next, List.append_eq_nil_iff] at nothing
    simpa using nothing.1

/-! ## Calls in any order -/

namespace Session

/-- What a tokenizer has handed out and what remains are the tokens of its lines. -/
structure Accounts (lines : List Text) (s : Session) : Prop where
  kept : s.tokenizer.lines = lines
  tokens : s.handedOut ++ s.tokenizer.remaining = Token.ofLines 0 none lines

variable {lines : List Text} {s : Session}

theorem accounts_new (lines : List Text) : (new (start lines)).Accounts lines := ⟨rfl, rfl⟩

theorem Accounts.call (h : s.Accounts lines) (c : Call) : (s.call c).Accounts lines := by
  cases c with
  | next =>
    refine ⟨(lines_next _).trans h.kept, ?_⟩
    rw [← h.tokens, Session.call, List.append_assoc, remaining_next]
  | restart =>
    have fresh : s.tokenizer.restart = start lines := congrArg start h.kept
    rw [Session.call, fresh]
    exact accounts_new lines

theorem Accounts.run (h : s.Accounts lines) (calls : List Call) : (s.run calls).Accounts lines := by
  induction calls generalizing s with
  | nil => exact h
  | cons c rest ih => exact ih (h.call c)

theorem Accounts.front (h : s.Accounts lines) : s.handedOut <+: Token.ofLines 0 none lines :=
  ⟨_, h.tokens⟩

theorem Accounts.answer_eq_none_iff (h : s.Accounts lines) :
    s.answer = none ↔ s.handedOut = Token.ofLines 0 none lines := by
  rw [answer, next_eq_none_iff, ← h.tokens, List.self_eq_append_right]

/-- A tokenizer that has handed out everything has nothing more to hand out. -/
theorem Accounts.exhausted (h : s.Accounts lines) (nothing : s.answer = none) (n : Nat) :
    (s.run (List.replicate n .next)).answer = none := by
  induction n generalizing s with
  | zero => exact nothing
  | succ n ih =>
    refine ih (h.call .next) ?_
    have same : s.tokenizer.next.1 = none := nothing
    rw [(h.call .next).answer_eq_none_iff, Session.call, same]
    simpa using h.answer_eq_none_iff.mp nothing

end Session

/-- After any calls, what has been handed out since the last restart is the front of what a new
tokenizer hands out; nothing is handed out exactly where that is everything, and nothing then until
a restart. -/
theorem calls_replay {lines : List Text} {fresh : Tokenizer}
    (accepted : ofLines lines = .ok fresh) :
    ∃ tokens, tokenize lines = .ok tokens ∧ fresh.HandsOut tokens ∧
      ∀ calls, let s := (Session.new fresh).run calls
        s.handedOut <+: tokens ∧ (s.answer = none ↔ s.handedOut = tokens) ∧
          (s.answer = none → ∀ n, (s.run (List.replicate n .next)).answer = none) := by
  unfold ofLines at accepted
  split at accepted
  next error => cases accepted
  next clean =>
    cases accepted
    refine ⟨Token.ofLines 0 none lines, ?_, handsOut_remaining (start lines), fun calls => ?_⟩
    · rw [tokenize, clean]
    · have accounts := (Session.accounts_new lines).run calls
      exact ⟨accounts.front, accounts.answer_eq_none_iff, accounts.exhausted⟩

/-- Two restarts, one between the tokens of a line and one inside a fence. -/
def interruptedCalls : List Call :=
  [.next, .next, .restart, .next, .next, .next, .next, .next, .next, .restart, .next, .next]

theorem interruptedCalls_replay :
    ofLines twoFences = .ok (start twoFences) ∧
      let s := (Session.new (start twoFences)).run interruptedCalls
      s.handedOut.map Token.line = [0, 0] ∧ s.answer ≠ none ∧
        ∃ tokens, tokenize twoFences = .ok tokens ∧ s.handedOut <+: tokens ∧
          ∀ n, ((s.run (List.replicate 5 .next)).run (List.replicate n .next)).answer = none := by
  have accepted : ofLines twoFences = .ok (start twoFences) := rfl
  obtain ⟨tokens, read, -, replay⟩ := calls_replay accepted
  obtain ⟨front, -, -⟩ := replay interruptedCalls
  refine ⟨accepted, by decide +kernel, by decide +kernel, tokens, read, front, ?_⟩
  obtain ⟨-, -, exhausted⟩ := replay (interruptedCalls ++ List.replicate 5 .next)
  rw [Session.run, List.foldl_append] at exhausted
  exact exhausted (by decide +kernel)

end DocComment.Tokenizer
