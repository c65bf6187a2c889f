import DocComment.Proofs.Inline.Address
import DocComment.Proofs.Inline.Argument
import DocComment.Proofs.Inline.Level
import DocComment.Proofs.Markup.Parts

/-!
# How a level grows

A level grows by text and by nodes, one after another, and what has been written is never taken
back. The nodes that a token makes by itself are simple; every other node is a span around a level
that has grown in the same way.
-/

set_option autoImplicit false

namespace DocComment.Inline

/-- A node that a token makes by itself: it holds nothing, or one text. -/
inductive Simple : Node → Prop
  | leaf {node : Node} (single : node.isContainer = false) (shown : ∀ t, node ≠ .text t) :
    Simple node
  | styled (style : Style) {t : Text} (nonempty : t ≠ []) : Simple (.styled style [.text t])
  | link {url : Text} (nonempty : url ≠ []) : Simple (.link url [.text url])

theorem Simple.shown {node : Node} (simple : Simple node) (t : Text) : node ≠ .text t := by
  cases simple with
  | leaf _ shown => exact shown t
  | styled | link => simp

/-- `Grows fits out next`: texts and nodes that fit, written after `out`, make `next`. -/
inductive Output.Grows (fits : Node → Prop) (out : Output) : Output → Prop
  | refl : Grows fits out out
  | write {next : Output} (earlier : Grows fits out next) (t : Text) : Grows fits out (next.write t)
  | addNode {next : Output} (earlier : Grows fits out next) {node : Node} (fit : fits node) :
    Grows fits out (next.addNode node)

namespace Output.Grows

variable {fits : Node → Prop} {out next last : Output}

theorem trans (first : Grows fits out next) (second : Grows fits next last) :
    Grows fits out last := by
  induction second with
  | refl => exact first
  | write _ t ih => exact ih.write t
  | addNode _ fit ih => exact ih.addNode fit

theorem mono {fits' : Node → Prop} (weaker : ∀ {node}, fits node → fits' node)
    (grows : Grows fits out next) : Grows fits' out next := by
  induction grows with
  | refl => exact .refl
  | write _ t ih => exact ih.write t
  | addNode _ fit ih => exact ih.addNode (weaker fit)

/-- What stands on a level that has grown from nothing is text, or fits. -/
theorem text_or_fits (grows : Grows fits .empty next) :
    ∀ node ∈ next.toNodes, (∃ t, node = .text t) ∨ fits node := by
  have closing {out : Output} (inside : ∀ node ∈ out.nodes, (∃ t, node = .text t) ∨ fits node) :
      ∀ node ∈ out.toNodes, (∃ t, node = .text t) ∨ fits node := by
    intro node mem
    unfold toNodes at mem
    split at mem
    · exact inside node mem
    · rcases List.mem_append.mp mem with before | here
      · exact inside node before
      · exact .inl ⟨_, List.mem_singleton.mp here⟩
  apply closing
  induction grows with
  | refl => simp [empty]
  | write _ t ih => exact ih
  | addNode _ fit ih =>
    intro node mem
    rcases List.mem_append.mp mem with before | here
    · exact closing ih node before
    · obtain rfl := List.mem_singleton.mp here
      exact .inr fit

theorem addSpace : Grows fits out out.addSpace := by
  unfold Output.addSpace
  split_ifs
  · exact .refl
  · exact .refl
  · exact .write .refl [' ']

theorem splice {nodes : List Node} (fit : ∀ node ∈ nodes, (∃ t, node = .text t) ∨ fits node) :
    Grows fits out (out.splice nodes) := by
  induction nodes generalizing out with
  | nil => exact .refl
  | cons node rest ih =>
    obtain ⟨here, later⟩ := List.forall_mem_cons.mp fit
    by_cases shown : ∃ t, node = .text t
    · obtain ⟨t, rfl⟩ := shown
      rw [Output.splice]
      exact (Grows.refl.write t).trans (ih later)
    · rw [Output.splice]
      · exact (Grows.refl.addNode (here.resolve_left shown)).trans (ih later)
      · exact fun t text => shown ⟨t, text⟩

theorem addSpan {opener : Text} {span : Span} {level : EndedLevel}
    (whole : level.closed = true → fits (span.node level.nodes))
    (fit : ∀ node ∈ level.nodes, (∃ t, node = .text t) ∨ fits node) :
    Grows fits out (out.addSpan opener span level) := by
  unfold Output.addSpan
  split
  next closed => exact .addNode .refl (whole closed)
  · exact (Grows.refl.write opener).trans (splice fit)

end Output.Grows

/-! ## Addresses -/

/-- An address is not all punctuation. -/
theorem splitPunctuation_scheme {t : Text} {n : Nat} (h : Url.scheme? t = some n) :
    (Url.splitPunctuation (t.take n)).1 ≠ [] := by
  apply Url.splitPunctuation_ne_nil
  refine ⟨'h', ?_, rfl⟩
  unfold Url.scheme? at h
  extract_lets authority at h
  have front {start : Text} (cut : authority start = some n) : 'h' ∈ start → 'h' ∈ t.take n := by
    intro mem
    obtain ⟨rest, dropped, found⟩ := Option.bind_eq_some_iff.mp cut
    dsimp only at found
    split_ifs at found
    cases found
    rw [Text.dropPrefix?_eq_some.mp dropped, List.take_length_add_append]
    exact List.mem_append_left _ mem
  rcases Option.or_eq_some_iff.mp h with first | ⟨-, second⟩
  · exact front first (by decide)
  · exact front second (by decide)

theorem splitPunctuation_match {skip : Nat} {t : Text} :
    ∀ found ∈ (Url.matchesFrom skip t).found, (Url.splitPunctuation found.url).1 ≠ [] := by
  fun_induction Url.matchesFrom skip t with
  | case1 => simp
  | case2 skip c t ih => exact ih
  | case3 c t n here later ih => exact List.forall_mem_cons.mpr ⟨splitPunctuation_scheme here, ih⟩
  | case4 c t none ih =>
    intro found mem
    generalize Url.matchesFrom 0 t = urls at ih mem
    obtain ⟨matched, rest⟩ := urls
    cases matched with
    | nil => simp [Url.Matches.consChar] at mem
    | cons first more =>
      rcases List.mem_cons.mp mem with rfl | later
      · exact ih first List.mem_cons_self
      · exact ih found (List.mem_cons_of_mem _ later)

namespace Output.Grows

variable {out : Output}

theorem writeMatches {fits : Node → Prop} {found : List Url.Match}
    (links : ∀ first ∈ found, ∀ url, url = (Url.splitPunctuation first.url).1 →
      fits (.link url [.text url])) (state : Output × Text) :
    Grows fits state.1 (found.foldl writeMatch state).1 := by
  induction found generalizing state with
  | nil => exact .refl
  | cons first rest ih =>
    obtain ⟨here, later⟩ := List.forall_mem_cons.mp links
    have grown : Grows fits state.1 (writeMatch state first).1 :=
      (Grows.refl.write _).addNode (here _ rfl)
    exact grown.trans (ih later (writeMatch state first))

theorem addText (t : Text) : Grows Simple out (Inline.addText out t) := by
  rw [addText_eq]
  refine (writeMatches (fun first mem url cut => ?_) (out, [])).write _
  exact .link (cut ▸ splitPunctuation_match first mem)

end Output.Grows

/-! ## What a token takes -/

section

variable {tokens : List Lexeme}

theorem upTo?_le {p : Lexeme → Bool} {read : Text × Nat} (h : upTo? p tokens = some read) :
    read.2 ≤ tokens.length := by
  obtain ⟨i, found, rfl⟩ := Option.map_eq_some_iff.mp h
  exact (List.findIdx?_eq_some_iff_getElem.mp found).1

theorem nextWord?_le {word : Text × Nat} (h : nextWord? tokens = some word) :
    word.2 ≤ tokens.length := by
  unfold nextWord? at h
  extract_lets spaces solid at h
  split_ifs at h
  cases h
  have front : spaces ≤ tokens.length := (List.takeWhile_prefix _).length_le
  have behind : solid.length ≤ (tokens.drop spaces).length := (List.takeWhile_prefix _).length_le
  rw [List.length_drop] at behind
  dsimp only
  omega

theorem argument?_reads {a : Argument} (h : argument? tokens = some a) :
    a.word ≠ [] ∧ a.taken ≤ tokens.length := by
  obtain ⟨⟨word, taken⟩, found, cut⟩ := Option.bind_eq_some_iff.mp h
  dsimp only at cut
  split_ifs at cut with empty
  cases cut
  exact ⟨by simpa using empty, nextWord?_le found⟩

theorem quoted?_le {read : Text × Nat} (h : quoted? tokens = some read) :
    read.2 ≤ tokens.length := by
  unfold quoted? at h
  split at h
  next space quote rest =>
    split_ifs at h
    obtain ⟨inside, found, rfl⟩ := Option.map_eq_some_iff.mp h
    have := upTo?_le found
    simp only [List.length_cons]
    omega
  next => cases h

theorem reference_le {a : Argument} (h : a.taken ≤ tokens.length) :
    a.taken + (reference a tokens).2 ≤ tokens.length := by
  unfold reference
  extract_lets display?
  cases shown : display? with
  | none => simpa using h
  | some read =>
    have quoted : quoted? (tokens.drop a.taken) = some read := by
      unfold display? at shown
      split_ifs at shown
      exact shown
    have := quoted?_le quoted
    rw [List.length_drop] at this
    simp only [Option.map_some, Option.getD_some]
    omega

/-- A command stands for a simple node, and takes no more tokens than there are. -/
theorem command?_reads {name : Text} {read : Reading} (found : command? name tokens = some read) :
    Simple read.node ∧ read.taken ≤ tokens.length := by
  have argument {f : Argument → Reading}
      (reads : ∀ a : Argument, a.word ≠ [] → a.taken ≤ tokens.length →
        Simple (f a).node ∧ (f a).taken ≤ tokens.length)
      (h : (argument? tokens).map f = some read) :
      Simple read.node ∧ read.taken ≤ tokens.length := by
    obtain ⟨a, cut, rfl⟩ := Option.map_eq_some_iff.mp h
    obtain ⟨nonempty, within⟩ := argument?_reads cut
    exact reads a nonempty within
  have word {f : Text × Nat → Reading} (simple : ∀ w, Simple (f w).node)
      (takes : ∀ w, (f w).taken = w.2) (h : (nextWord? tokens).map f = some read) :
      Simple read.node ∧ read.taken ≤ tokens.length := by
    obtain ⟨w, cut, rfl⟩ := Option.map_eq_some_iff.mp h
    exact ⟨simple w, takes w ▸ nextWord?_le cut⟩
  unfold command? at found
  split_ifs at found
  · cases found
    exact ⟨.leaf rfl (by simp), Nat.zero_le _⟩
  · exact argument (fun a _ within => ⟨.leaf rfl (by simp [Argument.reading]), within⟩) found
  · exact argument (fun a nonempty within => ⟨.styled .strong nonempty, within⟩) found
  · exact argument (fun a nonempty within => ⟨.styled .emphasis nonempty, within⟩) found
  · exact argument (fun a _ within => ⟨.leaf rfl (by simp [reference]), reference_le within⟩) found
  · exact argument (fun a _ within => ⟨.leaf rfl (by simp [Argument.reading]), within⟩) found
  · exact word (fun w => .leaf rfl (by simp)) (fun _ => rfl) found
  · exact word (fun w => .leaf rfl (by simp)) (fun _ => rfl) found

/-! ## Tokens -/

/-- `Adds out tokens next taken`: one token before `tokens` writes `next` from `out` and takes some
more of them with it. -/
inductive Adds (out : Output) (tokens : List Lexeme) : Output → Nat → Prop
  | space : Adds out tokens out.addSpace 0
  | write (t : Text) : Adds out tokens (out.write t) 0
  | text (t : Text) : Adds out tokens (addText out t) 0
  | node {node : Node} (simple : Simple node) {taken : Nat} (within : taken ≤ tokens.length) :
    Adds out tokens (out.addNode node) taken
  | command {node : Node} (simple : Simple node) (trailing : Text) {taken : Nat}
    (within : taken ≤ tokens.length) : Adds out tokens ((out.addNode node).write trailing) taken

variable {out next : Output} {taken : Nat}

theorem adds_closingTag {outer : List Closer} {closer : Closer} {raw name : Text}
    (h : closingTag outer closer out raw name = .proceed next taken) :
    Adds out tokens next taken := by
  unfold closingTag at h
  split_ifs at h
  cases h
  exact .write raw

theorem adds_openingTag {raw : Text} {tag : Tag}
    (h : openingTag out raw tag tokens = .proceed next taken) : Adds out tokens next taken := by
  unfold openingTag at h
  dsimp only at h
  split at h
  · cases h
    exact .node (.leaf rfl (by simp)) (Nat.zero_le _)
  split at h
  · split at h <;> cases h
    next found => exact .node (.leaf rfl (by simp)) (upTo?_le found)
    · exact .write raw
  split at h
  · split at h
    · cases h
    · split at h <;> cases h
      · refine .node (.leaf rfl (by simp)) ?_
        split
        next closes =>
          cases tokens with
          | nil => cases closes
          | cons first rest => exact Nat.le_add_left 1 rest.length
        · exact Nat.zero_le _
      · exact .write raw
  · split at h <;> cases h
    exact .write raw

/-- What a token does that neither opens nor ends a level. -/
theorem adds_step {outer : List Closer} {closer : Closer} {token : Lexeme}
    (h : step outer closer out token tokens = .proceed next taken) :
    Adds out tokens next taken := by
  unfold step at h
  split at h
  case h_1 | h_2 =>
    cases h
    exact .space
  case h_3 | h_5 | h_6 =>
    cases h
    exact .write _
  case h_4 =>
    cases h
    exact .text _
  case h_7 | h_8 =>
    split at h <;> cases h
    next found => exact .node (.leaf rfl (by simp)) (upTo?_le found)
    · exact .write _
  case h_9 | h_10 | h_11 =>
    split_ifs at h
    cases h
    exact .write _
  case h_12 =>
    split at h
    · cases h
      exact .write _
    · split_ifs at h
      · exact adds_closingTag h
      · exact adds_openingTag h
  case h_13 =>
    split at h <;> cases h
    next found =>
      obtain ⟨simple, within⟩ := command?_reads found
      exact .command simple _ within
    · exact .write _

theorem Adds.grows (adds : Adds out tokens next taken) : out.Grows Simple next := by
  cases adds with
  | space => exact .addSpace
  | write t => exact .write .refl t
  | text t => exact .addText t
  | node simple => exact .addNode .refl simple
  | command simple trailing => exact .write (.addNode .refl simple) trailing

theorem Adds.within (adds : Adds out tokens next taken) : taken ≤ tokens.length := by
  cases adds with
  | node _ within | command _ _ within => exact within
  | _ => exact Nat.zero_le _

end

/-- A level is made of simple nodes, and of spans around levels that are made like it. -/
theorem Reads.grows {fits : Node → Prop} (simple : ∀ {node}, Simple node → fits node)
    (spans : ∀ (span : Span) {final : Output}, Output.empty.Grows fits final →
      fits (span.node final.toNodes))
    {outer : List Closer} {closer : Closer} {out : Output} {tokens : List Lexeme}
    {level : EndedLevel} (reads : Reads outer closer out tokens level) :
    ∃ final, out.Grows fits final ∧ level.nodes = final.toNodes := by
  induction reads with
  | finish outer closer out => exact ⟨out, .refl, rfl⟩
  | @close _ _ out => exact ⟨out, .refl, rfl⟩
  | @leave _ _ out => exact ⟨out, .refl, rfl⟩
  | proceed here later ih =>
    obtain ⟨final, grows, nodes⟩ := ih
    exact ⟨final, ((adds_step here).grows.mono simple).trans grows, nodes⟩
  | nest here inside later ihInside ihLater =>
    obtain ⟨body, grown, bodyNodes⟩ := ihInside
    obtain ⟨final, grows, nodes⟩ := ihLater
    refine ⟨final, .trans (.addSpan ?_ ?_) grows, nodes⟩
    · rintro -
      rw [bodyNodes]
      exact spans _ grown
    · rw [bodyNodes]
      exact grown.text_or_fits

end DocComment.Inline
