import DocComment.Proofs.Inline.Grown

/-!
# Texts stand apart

Text that is written piece by piece comes out as one node. So on every level of what is read no two
texts stand side by side and none is empty, and on the outermost level none has white space at the
ends.
-/

set_option autoImplicit false

namespace DocComment

def Node.isText : Node → Bool
  | .text _ => true
  | _ => false

/-- Nodes among which every text is as long as it can be: it is not empty, and the nodes beside it
are no texts. -/
structure Separated (nodes : List Node) : Prop where
  nonempty : ∀ t, .text t ∈ nodes → t ≠ []
  apart : nodes.IsChain fun a b => a.isText = true → b.isText = false

namespace Separated

variable {nodes : List Node}

theorem nil : Separated [] := ⟨nofun, .nil⟩

/-- A node that is no text can be added to any others. -/
theorem concat (h : Separated nodes) {node : Node} (shown : node.isText = false) :
    Separated (nodes ++ [node]) where
  nonempty := by
    intro t mem
    rcases List.mem_append.mp mem with before | here
    · exact h.nonempty t before
    · obtain rfl := List.mem_singleton.mp here
      cases shown
  apart := by
    rw [List.isChain_append]
    refine ⟨h.apart, .singleton node, ?_⟩
    rintro a - b here -
    obtain rfl : node = b := by simpa using here
    exact shown

/-- A text can be added behind a node that is none. -/
theorem concatText (h : Separated nodes) (last : ∀ node ∈ nodes.getLast?, node.isText = false)
    {t : Text} (nonempty : t ≠ []) : Separated (nodes ++ [.text t]) where
  nonempty := by
    intro u mem
    rcases List.mem_append.mp mem with before | here
    · exact h.nonempty u before
    · obtain rfl : u = t := by simpa using here
      exact nonempty
  apart := by
    rw [List.isChain_append]
    refine ⟨h.apart, .singleton _, ?_⟩
    rintro a mem b - text
    rw [last a mem] at text
    cases text

end Separated

/-- A node that is no text, in which every level is separated. -/
def Node.Neat (node : Node) : Prop :=
  node.isText = false ∧ ∀ inner ∈ node.preorder, Separated inner.parts

namespace Inline

/-! ## One level -/

/-- A level whose nodes are separated, with room for text behind them. -/
structure Output.Open (out : Output) : Prop where
  separated : Separated out.nodes
  last : ∀ node ∈ out.nodes.getLast?, node.isText = false

theorem Output.Open.toNodes {out : Output} (h : out.Open) : Separated out.toNodes := by
  unfold Output.toNodes
  split
  · exact h.separated
  next text => exact h.separated.concatText h.last (by simpa using text)

theorem Output.Grows.opened {fits : Node → Prop} (shown : ∀ {node}, fits node → node.isText = false)
    {out next : Output} (grows : out.Grows fits next) (h : out.Open) : next.Open := by
  induction grows with
  | refl => exact h
  | write _ t ih => exact ⟨ih.separated, ih.last⟩
  | @addNode next _ node fit ih =>
    refine ⟨ih.toNodes.concat (shown fit), ?_⟩
    intro last mem
    obtain rfl : node = last := by simpa [Output.addNode] using mem
    exact shown fit

/-! ## All levels -/

theorem Simple.neat {node : Node} (simple : Simple node) : node.Neat := by
  have single {t : Text} (nonempty : t ≠ []) : Separated [.text t] :=
    Separated.nil.concatText nofun nonempty
  cases simple with
  | leaf none shown =>
    constructor
    · cases node with
      | text t => exact absurd rfl (shown t)
      | _ => rfl
    · rw [Node.preorder_eq, Node.parts_of_not_isContainer none]
      simpa [Node.parts_of_not_isContainer none] using Separated.nil
  | styled style nonempty =>
    refine ⟨rfl, ?_⟩
    simpa [Node.preorder_eq, Node.parts] using ⟨single nonempty, Separated.nil⟩
  | link nonempty =>
    refine ⟨rfl, ?_⟩
    simpa [Node.preorder_eq, Node.parts] using ⟨single nonempty, Separated.nil⟩

theorem neat_inside {nodes : List Node} (h : ∀ node ∈ nodes, (∃ t, node = .text t) ∨ node.Neat) :
    ∀ inner ∈ nodes.flatMap Node.preorder, Separated inner.parts := by
  intro inner mem
  obtain ⟨node, known, within⟩ := List.mem_flatMap.mp mem
  rcases h node known with ⟨t, rfl⟩ | neat
  · obtain rfl : inner = .text t := by simpa [Node.preorder_eq, Node.parts] using within
    exact Separated.nil
  · exact neat.2 inner within

theorem neat_span (span : Span) {final : Output} (grows : Output.empty.Grows Node.Neat final) :
    (span.node final.toNodes).Neat := by
  have parts : (span.node final.toNodes).parts = final.toNodes := by cases span <;> rfl
  have whole : Separated final.toNodes :=
    (grows.opened And.left ⟨Separated.nil, nofun⟩).toNodes
  have shown : (span.node final.toNodes).isText = false := by cases span <;> rfl
  refine ⟨shown, ?_⟩
  rw [Node.preorder_eq, parts]
  refine List.forall_mem_cons.mpr ⟨?_, neat_inside grows.text_or_fits⟩
  rwa [parts]

/-! ## The ends of a text -/

theorem isText_mapText (f : Text → Text) (node : Node) : (mapText f node).isText = node.isText := by
  cases node <;> rfl

theorem isEmptyText_iff {node : Node} : isEmptyText node = true ↔ node = .text [] := by
  cases node with
  | text t => cases t <;> simp [isEmptyText]
  | _ => simp [isEmptyText]

theorem isText_trimFirst (nodes : List Node) :
    (trimFirst nodes).map Node.isText = nodes.map Node.isText := by
  cases nodes with
  | nil => rfl
  | cons node rest => rw [trimFirst, List.map_cons, isText_mapText, List.map_cons]

theorem isText_trimLast (nodes : List Node) :
    (trimLast nodes).map Node.isText = nodes.map Node.isText := by
  rcases nodes.eq_nil_or_concat' with rfl | ⟨front, node, rfl⟩
  · rfl
  · simp [trimLast_concat, isText_mapText]

/-- Whether texts are apart is seen from what is text. -/
theorem isChain_of_isText {nodes nodes' : List Node}
    (same : nodes'.map Node.isText = nodes.map Node.isText)
    (h : nodes.IsChain fun a b => a.isText = true → b.isText = false) :
    nodes'.IsChain fun a b => a.isText = true → b.isText = false := by
  have chain (nodes : List Node) :=
    List.isChain_map (R := fun a b => a = true → b = false) Node.isText (l := nodes)
  rw [← chain] at h ⊢
  rwa [same]

/-- Trimming makes no new nodes but texts. -/
theorem mem_trimEnds {nodes : List Node} {node : Node} (h : node ∈ trimEnds nodes) :
    (∃ t, node = .text t) ∨ node ∈ nodes := by
  have mapped {f : Text → Text} {a : Node} : (∃ t, mapText f a = .text t) ∨ mapText f a = a := by
    cases a with
    | text t => exact .inl ⟨_, rfl⟩
    | _ => exact .inr rfl
  have first (known : node ∈ trimFirst nodes) : (∃ t, node = .text t) ∨ node ∈ nodes := by
    cases nodes with
    | nil => cases known
    | cons a rest =>
      rcases List.mem_cons.mp known with rfl | later
      · exact mapped.imp_right fun same => by simp [same]
      · exact .inr (List.mem_cons_of_mem a later)
  have trimmed : node ∈ trimLast (trimFirst nodes) := (List.mem_filter.mp h).1
  rcases (trimFirst nodes).eq_nil_or_concat' with empty | ⟨front, a, cut⟩
  · simp [empty, trimLast] at trimmed
  · rw [cut] at first
    rw [cut, trimLast_concat] at trimmed
    rcases List.mem_append.mp trimmed with before | here
    · exact first (List.mem_append_left _ before)
    · obtain rfl := List.mem_singleton.mp here
      rcases mapped (f := Text.trimEnd) (a := a) with text | same
      · exact .inl text
      · rw [same] at first ⊢
        exact first (by simp)

/-- Trimming changes only the nodes at the ends. -/
theorem inner_trimmed (nodes : List Node) :
    (trimLast (trimFirst nodes)).tail.dropLast = nodes.tail.dropLast := by
  have last (nodes : List Node) : (trimLast nodes).dropLast = nodes.dropLast := by
    rcases nodes.eq_nil_or_concat' with rfl | ⟨front, node, rfl⟩
    · rfl
    · simp [trimLast_concat]
  have first : (trimFirst nodes).tail = nodes.tail := by cases nodes <;> rfl
  rw [← List.tail_dropLast, last, List.tail_dropLast, first]

/-- If only the nodes at the ends can be empty, then what is left without them is in one piece. -/
theorem infix_filter {nodes : List Node} (inner : ∀ t, .text t ∈ nodes.tail.dropLast → t ≠ []) :
    nodes.filter (fun node => !isEmptyText node) <:+: nodes := by
  have one (node : Node) : [node].filter (fun node => !isEmptyText node) = [] ∨
      [node].filter (fun node => !isEmptyText node) = [node] := by
    cases h : isEmptyText node <;> simp [h]
  cases nodes with
  | nil => exact List.infix_rfl
  | cons first rest =>
    rcases rest.eq_nil_or_concat' with rfl | ⟨mid, last, rfl⟩
    · rcases one first with dropped | kept
      · rw [dropped]
        exact List.nil_infix
      · rw [kept]
    · have kept : mid.filter (fun node => !isEmptyText node) = mid := by
        rw [List.filter_eq_self]
        intro node mem
        rw [Bool.not_eq_true', ← Bool.not_eq_true, isEmptyText_iff]
        rintro rfl
        exact inner [] (by simpa using mem) rfl
      rw [← List.singleton_append, List.filter_append, List.filter_append, kept]
      rcases one first with dropped | whole <;> rcases one last with dropped' | whole'
      · exact ⟨[first], [last], by simp [dropped, dropped']⟩
      · exact ⟨[first], [], by simp [dropped, whole']⟩
      · exact ⟨[], [last], by simp [whole, dropped']⟩
      · exact ⟨[], [], by simp [whole, whole']⟩

/-- Where texts are apart, a text comes first only if it did before what is empty was left out. -/
theorem head?_filter {nodes : List Node}
    (apart : nodes.IsChain fun a b => a.isText = true → b.isText = false) {t : Text}
    (first : (nodes.filter fun node => !isEmptyText node).head? = some (.text t)) :
    nodes.head? = some (.text t) := by
  cases nodes with
  | nil => cases first
  | cons node rest =>
    by_cases empty : isEmptyText node = true
    · rw [List.filter_cons_of_neg (by simp [empty])] at first
      obtain rfl := isEmptyText_iff.mp empty
      cases rest with
      | nil => cases first
      | cons next rest =>
        have shown : next.isText = false := (List.isChain_cons_cons.mp apart).1 rfl
        have full : isEmptyText next = false := by
          rw [← Bool.not_eq_true, isEmptyText_iff]
          rintro rfl
          cases shown
        obtain rfl : next = .text t := by simpa [full] using first
        cases shown
    · rwa [List.filter_cons_of_pos (by simp [empty])] at first

theorem getLast?_filter {nodes : List Node}
    (apart : nodes.IsChain fun a b => a.isText = true → b.isText = false) {t : Text}
    (last : (nodes.filter fun node => !isEmptyText node).getLast? = some (.text t)) :
    nodes.getLast? = some (.text t) := by
  rw [← List.head?_reverse] at last ⊢
  rw [← List.filter_reverse] at last
  refine head?_filter ?_ last
  rw [List.isChain_reverse]
  refine apart.imp fun a b h text => ?_
  by_contra other
  rw [h (by simpa using other)] at text
  cases text

theorem head?_trimmed {nodes : List Node} {t : Text}
    (first : (trimLast (trimFirst nodes)).head? = some (.text t)) :
    ∀ c ∈ t.head?, Text.isSpace c = false := by
  have trimmed {node : Node} (here : mapText Text.trimStart node = .text t) :
      ∀ c ∈ t.head?, Text.isSpace c = false := by
    cases node with
    | text u =>
      cases here
      exact Text.head?_trimStart u
    | _ => cases here
  cases nodes with
  | nil => cases first
  | cons node rest =>
    cases rest with
    | nil =>
      cases node with
      | text u =>
        cases first
        exact Text.head?_trimEnd (Text.head?_trimStart u)
      | _ => cases first
    | cons next rest => exact trimmed (Option.some.inj first)

theorem getLast?_trimmed {nodes : List Node} {t : Text}
    (last : (trimLast nodes).getLast? = some (.text t)) :
    ∀ c ∈ t.getLast?, Text.isSpace c = false := by
  rcases nodes.eq_nil_or_concat' with rfl | ⟨front, node, rfl⟩
  · cases last
  · rw [trimLast_concat, List.getLast?_concat] at last
    cases node with
    | text u =>
      cases last
      exact Text.getLast?_trimEnd u
    | _ => cases last

theorem trimEnds_separated {nodes : List Node} (h : Separated nodes) :
    Separated (trimEnds nodes) ∧
      (∀ t, (trimEnds nodes).head? = some (.text t) → ∀ c ∈ t.head?, Text.isSpace c = false) ∧
      ∀ t, (trimEnds nodes).getLast? = some (.text t) →
        ∀ c ∈ t.getLast?, Text.isSpace c = false := by
  have apart := isChain_of_isText
    ((isText_trimLast (trimFirst nodes)).trans (isText_trimFirst nodes)) h.apart
  have inner : ∀ t, .text t ∈ (trimLast (trimFirst nodes)).tail.dropLast → t ≠ [] := by
    intro t mem
    rw [inner_trimmed] at mem
    exact h.nonempty t (List.mem_of_mem_tail (List.mem_of_mem_dropLast mem))
  refine ⟨⟨?_, apart.infix (infix_filter inner)⟩, ?_, ?_⟩
  · rintro t mem rfl
    simpa [isEmptyText] using (List.mem_filter.mp mem).2
  · intro t first
    exact head?_trimmed (head?_filter apart first)
  · intro t last
    exact getLast?_trimmed (getLast?_filter apart last)

/-- What a text reads as is in normal form: on every level, inside styled text and links too, no
text is empty and no two texts are side by side, and no white space stands at the ends of the
whole. -/
theorem parse_separated (t : Text) :
    Separated (parse t) ∧ (∀ node ∈ (parse t).flatMap Node.preorder, Separated node.parts) ∧
      (∀ u, (parse t).head? = some (.text u) → ∀ c ∈ u.head?, Text.isSpace c = false) ∧
      ∀ u, (parse t).getLast? = some (.text u) → ∀ c ∈ u.getLast?, Text.isSpace c = false := by
  obtain ⟨final, grows, nodes⟩ :=
    (reads_readLevel [] .finish .empty (Lexeme.ofTokens false (InlineToken.lex t))).grows
      Simple.neat neat_span
  have level : Separated final.toNodes := (grows.opened And.left ⟨Separated.nil, nofun⟩).toNodes
  rw [parse, nodes]
  obtain ⟨separated, first, last⟩ := trimEnds_separated level
  refine ⟨separated, neat_inside fun node mem => ?_, first, last⟩
  exact (mem_trimEnds mem).elim .inl (grows.text_or_fits node)

end Inline

end DocComment
