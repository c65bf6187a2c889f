import DocComment.Proofs.Inline.Grown

/-!
# Text that starts with a pipe or a mark

What is written first on a level stays first, whatever is written after it. So a text that starts
with a character that means nothing by itself is never read as nothing, and neither is one that
starts with a command mark.
-/

set_option autoImplicit false

namespace DocComment.Inline

/-! ## What lasts -/

/-- A property of what has been written that stays when more is written. -/
structure Output.Lasting (holds : Output → Prop) : Prop where
  write : ∀ {out : Output}, holds out → ∀ t, holds (out.write t)
  addNode : ∀ {out : Output}, holds out → ∀ node, holds (out.addNode node)

section

variable {holds : Output → Prop} (lasting : Output.Lasting holds)

include lasting

/-- What lasts holds of all that a level grows to. -/
theorem Output.Lasting.grows {fits : Node → Prop} {out next : Output} (here : holds out)
    (grows : out.Grows fits next) : holds next := by
  induction grows with
  | refl => exact here
  | write _ t ih => exact lasting.write ih t
  | addNode _ _ ih => exact lasting.addNode ih _

theorem Output.Lasting.writeMatches {state : Output × Text} (here : holds state.1)
    (found : List Url.Match) : holds (found.foldl writeMatch state).1 := by
  have grows : state.1.Grows (fun _ => True) (found.foldl writeMatch state).1 :=
    .writeMatches (fun _ _ _ _ => trivial) state
  exact lasting.grows here grows

end

/-- Whether the first thing that is written is a text with this first character. -/
def Output.Begins (c : Char) (out : Output) : Prop :=
  ∃ t rest, out.toNodes = .text (c :: t) :: rest

namespace Output.Begins

variable {c : Char} {out : Output}

theorem addNode (begins : out.Begins c) (node : Node) : (out.addNode node).Begins c := by
  obtain ⟨t, rest, first⟩ := begins
  have nodes : (out.addNode node).toNodes = out.toNodes ++ [node] := by
    simp [Output.addNode, Output.toNodes]
  exact ⟨t, rest ++ [node], by rw [nodes, first, List.cons_append]⟩

theorem write (begins : out.Begins c) (more : Text) : (out.write more).Begins c := by
  obtain ⟨t, rest, first⟩ := begins
  by_cases empty : out.text = []
  · have nodes : out.nodes = .text (c :: t) :: rest := by
      simpa [Output.toNodes, empty] using first
    by_cases nothing : more = []
    · exact ⟨t, rest, by simp [Output.toNodes, Output.write, empty, nothing, nodes]⟩
    · exact ⟨t, rest ++ [.text more], by
        simp [Output.toNodes, Output.write, empty, nothing, nodes]⟩
  · rw [Output.toNodes, if_neg (by simpa using empty)] at first
    cases nodes : out.nodes with
    | nil =>
      have text : out.text = c :: t := by simpa [nodes] using congrArg List.head? first
      exact ⟨t ++ more, [], by simp [Output.toNodes, Output.write, nodes, text]⟩
    | cons node others =>
      rw [nodes] at first
      obtain ⟨rfl, -⟩ := List.cons.inj first
      exact ⟨t, others ++ [.text (out.text ++ more)], by
        simp [Output.toNodes, Output.write, nodes, empty]⟩

end Output.Begins

/-- Whether a node was written first, with no text before it. -/
def Output.Leads (node : Node) (out : Output) : Prop := out.nodes.head? = some node

namespace Output.Leads

variable {node : Node} {out : Output}

theorem toNodes (leads : out.Leads node) : out.toNodes.head? = some node := by
  unfold Output.toNodes
  split
  · exact leads
  · rw [List.head?_append, leads, Option.some_or]

theorem addNode (leads : out.Leads node) (other : Node) : (out.addNode other).Leads node := by
  rw [Leads, Output.addNode, List.head?_append, leads.toNodes, Option.some_or]

end Output.Leads

/-- Whether a level shows something, whatever is still written: it starts with a character that is
no space, or with a node that is no text. -/
def Output.Shows (out : Output) : Prop :=
  (∃ c, Text.isSpace c = false ∧ out.Begins c) ∨ ∃ node, (∀ t, node ≠ .text t) ∧ out.Leads node

theorem Output.shows_lasting : Output.Lasting Output.Shows where
  write := by
    rintro out (⟨c, space, begins⟩ | ⟨node, shown, leads⟩) t
    · exact .inl ⟨c, space, begins.write t⟩
    · exact .inr ⟨node, shown, leads⟩
  addNode := by
    rintro out (⟨c, space, begins⟩ | ⟨node, shown, leads⟩) other
    · exact .inl ⟨c, space, begins.addNode other⟩
    · exact .inr ⟨node, shown, leads.addNode other⟩

/-! ## Texts -/

theorem trimEnds_ne_nil {c : Char} (h : Text.isSpace c = false) (t : Text) (rest : List Node) :
    trimEnds (.text (c :: t) :: rest) ≠ [] := by
  have front : trimFirst (.text (c :: t) :: rest) = .text (c :: t) :: rest := by
    simp [trimFirst, mapText, Text.trimStart, h]
  have back : Text.trimEnd (c :: t) ≠ [] := by
    intro blank
    simpa [h] using Text.isSpace_of_trimEnd blank c List.mem_cons_self
  rw [trimEnds, front]
  cases rest with
  | nil =>
    cases kept : Text.trimEnd (c :: t) with
    | nil => exact absurd kept back
    | cons d more => simp [trimLast, mapText, kept, isEmptyText]
  | cons node rest => simp [trimLast, isEmptyText]

theorem trimEnds_of_head {node : Node} (shown : ∀ t, node ≠ .text t) {nodes : List Node}
    (first : nodes.head? = some node) : trimEnds nodes ≠ [] := by
  obtain ⟨rest, rfl⟩ := List.head?_eq_some_iff.mp first
  have same (f : Text → Text) : mapText f node = node := by
    cases node with
    | text t => exact absurd rfl (shown t)
    | _ => rfl
  have full : isEmptyText node = false := by
    cases node with
    | text t => exact absurd rfl (shown t)
    | _ => rfl
  rw [trimEnds, trimFirst, same]
  cases rest with
  | nil => simp [trimLast, same, full]
  | cons next rest => simp [trimLast, full]

/-- A text shows something if its first token does. -/
theorem parse_of_first {c : Char} {t : Text} {kind : InlineToken.Kind} {taken : Nat}
    (shape : InlineToken.shape c t = (kind, taken))
    (first : ∀ rest, ∃ next more,
      step [] .finish .empty ⟨kind, c :: t.take taken, false⟩ rest = .proceed next more ∧
        next.Shows) :
    parse (c :: t) ≠ [] := by
  have tokens : Lexeme.ofTokens false (InlineToken.lex (c :: t)) =
      ⟨kind, c :: t.take taken, false⟩ ::
        Lexeme.ofTokens (!kind.isSpace) (InlineToken.lex (t.drop taken)) := by
    rw [InlineToken.lex, shape]
    rfl
  generalize Lexeme.ofTokens (!kind.isSpace) (InlineToken.lex (t.drop taken)) = rest at tokens
  obtain ⟨next, more, here, shows⟩ := first rest
  obtain ⟨final, grows, nodes⟩ : ∃ final, next.Grows (fun _ => True) final ∧
      (readLevel [] .finish next (rest.drop more)).1.nodes = final.toNodes :=
    (reads_readLevel [] .finish next (rest.drop more)).grows (fun _ => trivial)
      fun _ _ _ => trivial
  replace shows := Output.shows_lasting.grows shows grows
  rw [parse, tokens, readLevel_proceed here, nodes]
  obtain ⟨d, space, text, others, first⟩ | ⟨node, shown, leads⟩ := shows
  · rw [first]
    exact trimEnds_ne_nil space text others
  · exact trimEnds_of_head shown leads.toNodes

theorem addText_pipe (t : Text) : (addText .empty ('|' :: t)).Shows := by
  have start (more : Text) : (Output.empty.write ('|' :: more)).Shows :=
    .inl ⟨'|', rfl, more, [], rfl⟩
  have urls : Url.matchesIn ('|' :: t) = (Url.matchesIn t).consChar '|' := rfl
  rw [addText_eq, urls]
  cases found : (Url.matchesIn t).found with
  | nil =>
    have same : Url.matchesIn t = ⟨[], (Url.matchesIn t).rest⟩ := by rw [← found]
    rw [same]
    exact start _
  | cons first rest =>
    have same : Url.matchesIn t = ⟨first :: rest, (Url.matchesIn t).rest⟩ := by rw [← found]
    rw [same, Url.Matches.consChar, List.foldl_cons]
    have lasting := Output.shows_lasting
    exact lasting.write (lasting.writeMatches (lasting.addNode (start _) _) rest) _

/-- A text that starts with a pipe shows something. -/
theorem parse_pipe (t : Text) : parse ('|' :: t) ≠ [] :=
  parse_of_first (show InlineToken.shape '|' t = (.text, _) from rfl) fun _ =>
    ⟨_, 0, rfl, addText_pipe _⟩

/-- What a mark starts is shown. -/
theorem step_mark {c : Char} (mark : Command.isMark c = true) (t : Text) (glued : Bool)
    (outer : List Closer) (closer : Closer) (rest : List Lexeme) {kind : InlineToken.Kind}
    {taken : Nat} (starts : InlineToken.afterMark t = (kind, taken)) :
    ∃ next more, step outer closer .empty ⟨kind, c :: t.take taken, glued⟩ rest =
      .proceed next more ∧ next.Shows := by
  have space : Text.isSpace c = false := by
    simp only [Command.isMark, Bool.or_eq_true, beq_iff_eq] at mark
    obtain rfl | rfl := mark <;> decide
  have literal (more : Text) : (Output.empty.write (c :: more)).Shows :=
    .inl ⟨c, space, more, [], rfl⟩
  unfold InlineToken.afterMark at starts
  split at starts
  · cases starts
    exact ⟨_, _, rfl, literal _⟩
  next d rest' =>
    split_ifs at starts with escaped formula letter
    · cases starts
      have visible : ("@\\&$#<>%.|\"~:".toList.all fun d => !Text.isSpace d) = true := by decide
      have here : d ∈ "@\\&$#<>%.|\"~:".toList := by simpa [InlineToken.isEscapable] using escaped
      have space : Text.isSpace d = false := by simpa using List.all_eq_true.1 visible d here
      exact ⟨_, _, rfl, .inl ⟨d, space, [], [], rfl⟩⟩
    · cases starts
      unfold step
      dsimp only
      split
      next latex taken closed =>
        exact ⟨_, _, rfl, .inr ⟨_, by simp, rfl⟩⟩
      · exact ⟨_, _, rfl, literal _⟩
    · cases starts
      unfold step
      dsimp only
      split
      next read found => exact ⟨_, _, rfl, .inr ⟨read.node, (command?_reads found).1.shown, rfl⟩⟩
      · exact ⟨_, _, rfl, literal _⟩
    · cases starts
      exact ⟨_, _, rfl, literal _⟩

/-- A text that starts with a command mark shows something, whatever the mark starts. -/
theorem parse_mark {c : Char} (mark : Command.isMark c = true) (t : Text) :
    parse (c :: t) ≠ [] := by
  obtain ⟨kind, taken, starts⟩ : ∃ kind taken, InlineToken.afterMark t = (kind, taken) :=
    ⟨_, _, rfl⟩
  have shape : InlineToken.shape c t = (kind, taken) := by
    rw [← starts]
    simp only [Command.isMark, Bool.or_eq_true, beq_iff_eq] at mark
    obtain rfl | rfl := mark <;> rfl
  exact parse_of_first shape fun rest => step_mark mark t false [] .finish rest starts

end DocComment.Inline
