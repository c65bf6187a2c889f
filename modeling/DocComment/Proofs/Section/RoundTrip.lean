import DocComment.Proofs.Block.RoundTrip
import DocComment.Proofs.Section.Written

/-!
# Written sections are read back

Blocks reach their section late, when the next one begins, and by then the documentation may have
grown. What a reader holds is what it would deliver now; each element of the documentation adds
itself to that, whatever was open before it.
-/

set_option autoImplicit false

namespace DocComment

open PlainLine

/-! ## Arguments -/

namespace Text

/-- Whether no space stands at either end of a text. -/
def Trimmed (t : Text) : Prop := t = [] ∨ t.Tight

theorem Trimmed.spaced {t : Text} (h : t.Trimmed) : Text.trim (spaced t) = t := by
  obtain rfl | h := h
  · rfl
  · obtain ⟨⟨c, rest, rfl, -⟩, -⟩ := id h
    have space : Text.trimStart (' ' :: c :: rest) = Text.trimStart (c :: rest) := rfl
    rw [PlainLine.spaced, Text.trim, space, ← Text.trim, h.trim]

theorem Trimmed.trimStart {t : Text} (h : t.Trimmed) : Text.trimStart t = t := by
  obtain rfl | h := h
  · rfl
  · exact h.trimStart

theorem Tight.append_spaced {a b : Text} (ha : a.Tight) (hb : b.Trimmed) :
    Text.Tight (a ++ PlainLine.spaced b) := by
  obtain rfl | hb := hb
  · simpa [PlainLine.spaced] using ha
  · obtain ⟨⟨c, rest, rfl, hc⟩, -⟩ := ha
    obtain ⟨⟨d, later, rfl, -⟩, front, e, he, space⟩ := hb
    refine ⟨⟨c, _, rfl, hc⟩, c :: rest ++ ' ' :: front, e, ?_, space⟩
    rw [PlainLine.spaced, he]
    simp

end Text

theorem PlainLine.beside_trimmed (body : List Phrase) : (beside body).Trimmed := by
  unfold beside
  split
  · exact .inr (Phrase.tight _)
  · exact .inl rfl

namespace Section

theorem takeWord_word (w : Word) {t : Text} (h : t.Trimmed) :
    takeWord (w.text ++ spaced t) = (w.text, t) := by
  have noSpace : ∀ c ∈ w.text, Text.isSpace c = false :=
    fun c hc => Text.isSpace_of_isAlpha (w.letters c hc)
  have start := (w.tight.append_spaced h).trimStart
  unfold takeWord
  dsimp only
  rw [start]
  cases t with
  | nil =>
    rw [spaced, List.append_nil, Text.splitFirst?_of_not noSpace]
  | cons c t =>
    rw [spaced, Text.splitFirst?_at noSpace rfl]
    dsimp only
    rw [h.trimStart]

theorem parameterNames_word (w : Word) {t : Text} (h : t.Trimmed) :
    parameterNames (w.text ++ spaced t) = ([w.text], t) := by
  have noComma : ',' ∉ w.text := fun mem => absurd (w.letters _ mem) (by decide)
  have alone : w.text.splitOn ',' = [w.text] := by
    have joined : ([','].intercalate [w.text]).splitOn ',' = [w.text] :=
      List.splitOn_intercalate ',' (by simpa using noComma) (by simp)
    simpa using joined
  have last : ¬ (w.text.getLast? = some ',' ∧ t ≠ []) :=
    fun comma => noComma (List.mem_of_getLast? comma.1)
  rw [parameterNames, takeWord_word w h, dif_neg last, alone]
  simp [w.nonempty]

theorem takeDirection_bracket (direction : ParamDirection) (w : Word) {t : Text} (h : t.Trimmed) :
    takeDirection (Text.trim (bracket direction ++ spaced (w.text ++ spaced t))) =
      (direction, w.text ++ spaced t) := by
  have tight := w.tight.append_spaced h
  have bracketed (inner : Text) (spec : ParamDirection.ofSpec inner = direction)
      (noClose : ']' ∉ inner) :
      takeDirection (Text.trim ('[' :: (inner ++ ']' :: spaced (w.text ++ spaced t)))) =
        (direction, w.text ++ spaced t) := by
    have whole : Text.Tight ('[' :: (inner ++ ']' :: spaced (w.text ++ spaced t))) := by
      have front : Text.Tight ('[' :: (inner ++ [']'])) :=
        ⟨⟨'[', _, rfl, rfl⟩, '[' :: inner, ']', rfl, rfl⟩
      simpa using front.append_spaced (.inr tight)
    have closed : Text.splitFirst? (· == ']') (inner ++ ']' :: spaced (w.text ++ spaced t)) =
        some (inner, spaced (w.text ++ spaced t)) :=
      Text.splitFirst?_at (fun c hc => beq_eq_false_iff_ne.2 (ne_of_mem_of_not_mem hc noClose))
        rfl _
    have start : Text.trimStart (spaced (w.text ++ spaced t)) = w.text ++ spaced t := by
      obtain ⟨⟨c, rest, same, -⟩, -⟩ := id tight
      have trimmed := tight.trimStart
      rw [same] at trimmed ⊢
      exact trimmed
    rw [whole.trim, takeDirection, closed]
    dsimp only
    rw [spec, start]
  cases direction with
  | unspecified =>
    have opens : ∀ inner, w.text ++ spaced t ≠ '[' :: inner := by
      obtain ⟨c, rest, hw, hc⟩ := w.head
      rw [hw]
      rintro inner same
      exact Text.ne_of_isAlpha (d := '[') hc rfl (List.cons.inj same).1
    have trimmed : Text.trim (spaced (w.text ++ spaced t)) = w.text ++ spaced t :=
      Text.Trimmed.spaced (.inr tight)
    have none : takeDirection (w.text ++ spaced t) = (.unspecified, w.text ++ spaced t) := by
      unfold takeDirection
      split
      · next same => exact absurd same (opens _)
      · rfl
    exact (congrArg takeDirection trimmed).trans none
  | input => exact bracketed "in".toList (by decide) (by decide)
  | output => exact bracketed "out".toList (by decide) (by decide)
  | inputOutput => exact bracketed "in,out".toList (by decide) (by decide)

/-! ## Growing documentation -/

/-- Whether a section is there. -/
def Within (doc : Doc) : Section → Prop
  | params first count => first + count ≤ doc.params.length
  | retval index => index < doc.retvals.length
  | admonition index => index < doc.admonitions.length
  | _ => True

theorem addParams_append (first count : Nat) (nodes : List Node) {params : List (ParamEntry Node)}
    (within : first + count ≤ params.length) (more : List (ParamEntry Node)) :
    addParams first count nodes (params ++ more) = addParams first count nodes params ++ more := by
  have beyond : more.mapIdx (fun i p =>
      if first ≤ i + params.length ∧ i + params.length < first + count then
        { p with body := p.body ++ nodes } else p) = more := by
    refine List.ext_getElem (by simp) fun i _ _ => ?_
    rw [List.getElem_mapIdx, if_neg (by omega)]
  rw [addParams, List.mapIdx_append, beyond]
  rfl

theorem modify_append {α : Type} {front : List α} {i : Nat} (h : i < front.length) (f : α → α)
    (rest : List α) : (front ++ rest).modify i f = front.modify i f ++ rest := by
  induction front generalizing i with
  | nil => exact absurd h (Nat.not_lt_zero i)
  | cons a front ih =>
    cases i with
    | zero => rfl
    | succ i => simp [List.modify_succ_cons, ih (Nat.lt_of_succ_lt_succ h)]

end Section

/-- Documentation with more parameters, return values and admonitions. -/
def Doc.grow (params : List (ParamEntry Node)) (retvals : List (RetvalEntry Node))
    (admonitions : List (Admonition Node)) (doc : Doc) : Doc :=
  { doc with
    params := doc.params ++ params
    retvals := doc.retvals ++ retvals
    admonitions := doc.admonitions ++ admonitions }

namespace Section

/-- What a section receives does not depend on the elements behind it. -/
theorem add_grow {dest : Section} {doc : Doc} (within : dest.Within doc) (nodes : List Node)
    (params : List (ParamEntry Node)) (retvals : List (RetvalEntry Node))
    (admonitions : List (Admonition Node)) :
    dest.add nodes (doc.grow params retvals admonitions) =
      (dest.add nodes doc).grow params retvals admonitions := by
  unfold add
  split
  · rfl
  · cases dest with
    | brief =>
      cases nodes with
      | nil => rfl
      | cons node rest => cases h : doc.brief <;> simp [addBrief, Doc.grow, h]
    | params first count => simp [Doc.grow, addParams_append first count nodes within]
    | retval index => simp [Doc.grow, modify_append within]
    | admonition index => simp [Doc.grow, modify_append within]
    | _ => rfl

/-- Delivering adds no element to any section. -/
theorem lengths_add (dest : Section) (nodes : List Node) (doc : Doc) :
    (dest.add nodes doc).params.length = doc.params.length ∧
      (dest.add nodes doc).retvals.length = doc.retvals.length ∧
      (dest.add nodes doc).admonitions.length = doc.admonitions.length := by
  unfold add
  split
  · exact ⟨rfl, rfl, rfl⟩
  · cases dest with
    | brief =>
      cases nodes with
      | nil => exact ⟨rfl, rfl, rfl⟩
      | cons node rest => cases h : doc.brief <;> simp [addBrief, h]
    | _ => simp [addParams, Sections.addReturns]

theorem modify_last {α : Type} (front : List α) (x : α) (f : α → α) :
    (front ++ [x]).modify front.length f = front ++ [f x] := by
  induction front with
  | nil => rfl
  | cons a front ih => simp [List.modify_succ_cons, ih]

theorem add_params_last (doc : Doc) (name : Text) (direction : ParamDirection)
    (nodes : List Node) :
    (params doc.params.length 1).add nodes (doc.grow [⟨name, direction, []⟩] [] []) =
      { doc with params := doc.params ++ [⟨name, direction, nodes⟩] } := by
  have before : doc.params.mapIdx (fun i p =>
      if doc.params.length ≤ i ∧ i < doc.params.length + 1 then
        { p with body := p.body ++ nodes } else p) = doc.params := by
    refine List.ext_getElem (by simp) fun i _ _ => ?_
    rw [List.getElem_mapIdx, if_neg (by omega)]
  unfold add
  split
  · next empty => simp [Doc.grow, List.isEmpty_iff.1 empty]
  · have added : addParams doc.params.length 1 nodes (doc.params ++ [⟨name, direction, []⟩]) =
        doc.params ++ [⟨name, direction, nodes⟩] := by
      rw [addParams, List.mapIdx_append, before]
      simp
    simp [Doc.grow, added]

theorem add_retval_last (doc : Doc) (value : Text) (nodes : List Node) :
    (retval doc.retvals.length).add nodes (doc.grow [] [⟨value, []⟩] []) =
      { doc with retvals := doc.retvals ++ [⟨value, nodes⟩] } := by
  unfold add
  split
  · next empty => simp [Doc.grow, List.isEmpty_iff.1 empty]
  · simp [Doc.grow, modify_last]

theorem add_admonition_last (doc : Doc) (kind : AdmonitionKind) (title : Option Text)
    (nodes : List Node) :
    (admonition doc.admonitions.length).add nodes (doc.grow [] [] [⟨kind, title, []⟩]) =
      { doc with admonitions := doc.admonitions ++ [⟨kind, title, nodes⟩] } := by
  unfold add
  split
  · next empty => simp [Doc.grow, List.isEmpty_iff.1 empty]
  · simp [Doc.grow, modify_last]

end Section

/-! ## Reading lines -/

namespace SectionReader

variable (inner : BlockParser)

/-- Reads the lines from number `line` on. -/
def readLines (line : Nat) (s : SectionReader) (lines : List Text) : Option SectionReader :=
  (Token.ofLines line none lines).foldlM (fun s t => s.next {} inner t) s

/-- Whether some lines lead from one state to another. -/
def Reads (line : Nat) (s : SectionReader) (lines : List Text) (s' : SectionReader) : Prop :=
  ∀ rest, readLines inner line s (lines ++ rest) = readLines inner (line + lines.length) s' rest

variable {inner} {line : Nat} {s s' s'' : SectionReader}

theorem Reads.nil : Reads inner line s [] s := fun _ => rfl

theorem Reads.append {a b : List Text} (ha : Reads inner line s a s')
    (hb : Reads inner (line + a.length) s' b s'') : Reads inner line s (a ++ b) s'' := by
  intro rest
  rw [List.append_assoc, ha, hb, List.length_append, Nat.add_assoc]

theorem Reads.single {t : Text} {token : Token}
    (alone : Token.ofLine line none t = ([token], none))
    (step : s.next {} inner token = some s') : Reads inner line s [t] s' := by
  intro rest
  rw [readLines, List.cons_append, Token.ofLines, alone]
  simp [step, readLines]

theorem Reads.read {lines : List Text} (h : Reads inner line s lines s') :
    readLines inner line s lines = some s' := by
  have := h []
  rwa [List.append_nil] at this

/-! ### What a reader holds -/

/-- A reader without directives and reports that blocks have reached in a section. -/
def opened (doc : Doc) (dest : Section) (blocks : BlockReader) : SectionReader :=
  ⟨blocks, doc, dest, false, true, [], []⟩

/-- Whether a reader would have this documentation if it delivered its blocks now. -/
structure Holds (doc : Doc) (s : SectionReader) : Prop where
  pending : ∃ nodes : List Node, s.blocks.items = nodes.map Item.node ∧
    s.current.add nodes s.doc = doc
  within : s.current.Within s.doc
  opened : s = opened s.doc s.current s.blocks

theorem completeAll_nodes (nodes : List Node) :
    Item.completeAll inner (nodes.map Item.node) = some ⟨nodes, []⟩ := by
  induction nodes with
  | nil => rfl
  | cons node rest ih => exact Item.completeAll_cons rfl ih

theorem Holds.turnTo_grown {doc : Doc} (holds : Holds doc s) (params : List (ParamEntry Node))
    (retvals : List (RetvalEntry Node)) (admonitions : List (Admonition Node)) (dest : Section) :
    turnTo inner dest { s with doc := s.doc.grow params retvals admonitions } =
      some (SectionReader.opened (doc.grow params retvals admonitions) dest .empty) := by
  obtain ⟨⟨nodes, items, rfl⟩, within, opened⟩ := holds
  rw [turnTo, items, completeAll_nodes, opened]
  simp [SectionReader.opened, Section.add_grow within]

theorem Holds.turnTo {doc : Doc} (holds : Holds doc s) (dest : Section) :
    s.turnTo inner dest = some (SectionReader.opened doc dest .empty) := by
  have same : SectionReader.turnTo inner dest { s with doc := s.doc.grow [] [] [] } = _ :=
    holds.turnTo_grown [] [] [] dest
  simpa [Doc.grow] using same

theorem Holds.lengths {doc : Doc} (holds : Holds doc s) :
    s.doc.params.length = doc.params.length ∧ s.doc.retvals.length = doc.retvals.length ∧
      s.doc.admonitions.length = doc.admonitions.length := by
  obtain ⟨⟨nodes, -, rfl⟩, -, -⟩ := holds
  obtain ⟨params, retvals, admonitions⟩ := Section.lengths_add s.current nodes s.doc
  exact ⟨params.symm, retvals.symm, admonitions.symm⟩

/-! ### Paragraphs -/

theorem items_paragraph (p : Phrase) (closed : List Item) :
    (⟨some (.paragraph [p.text]), closed⟩ : BlockReader).items =
      closed ++ [.node p.paragraph] := by
  simp [BlockReader.items, BlockReader.close, OpenBlock.items, Item.paragraph, p.parse_line,
    Phrase.paragraph]

variable (inner line) in
theorem reads_phrase (ready : s.blocks.Ready false) (p : Phrase) :
    Reads inner line s [p.text]
      { s with blocks := ⟨some (.paragraph [p.text]), s.blocks.items⟩ } := by
  refine Reads.single (Token.ofLine_unmarked p.unmarked line) ?_
  rw [BlockReader.plain_phrase]
  simp [next, feed, BlockReader.feed_phrase ready]

theorem blank_paragraph (p : Phrase) (closed : List Item) (line : Nat) :
    BlockReader.feed {} ⟨some (.paragraph [p.text]), closed⟩ (Token.plain line []) =
      ⟨none, closed ++ [.node p.paragraph]⟩ := by
  rw [← items_paragraph]
  rfl

/-- A blank line ends a paragraph, but not a section that it does not lead out of. -/
theorem reads_blank (stays : s.current = .detail ∨ s.parBlock = true) (p : Phrase)
    (closed : List Item) :
    Reads inner line { s with blocks := ⟨some (.paragraph [p.text]), closed⟩ } [[]]
      { s with blocks := ⟨none, closed ++ [.node p.paragraph]⟩ } := by
  refine Reads.single (Token.ofLine_unmarked ?_ line) ?_
  · simp [Text.Unmarked]
  · have blank : (Token.plain line []).kind = .blank := rfl
    simp only [next, blank, feed, blank_paragraph]
    exact if_pos stays

variable (inner line) in
/-- Reads paragraphs inside a paragraph block. -/
theorem reads_paragraphs (block : s.parBlock = true) {body : List Phrase} (nonempty : body ≠ [])
    (closed : List Item) : ∃ blocks : BlockReader,
      blocks.items = closed ++ (body.map Phrase.paragraph).map Item.node ∧
      Reads inner line { s with blocks := ⟨none, closed⟩ } (paragraphs body)
        { s with blocks := blocks } := by
  induction body generalizing line closed with
  | nil => exact absurd rfl nonempty
  | cons p rest ih =>
    have phrase := reads_phrase inner line
      (s := { s with blocks := ⟨none, closed⟩ }) (.inl rfl) p
    cases rest with
    | nil => exact ⟨_, items_paragraph p closed, phrase⟩
    | cons q rest =>
      obtain ⟨blocks, items, read⟩ :=
        ih (line + 1 + 1) (List.cons_ne_nil _ _) (closed ++ [.node p.paragraph])
      refine ⟨blocks, by simpa using items, ?_⟩
      exact phrase.append ((reads_blank (.inr block) p closed).append read)

variable (inner line) in
/-- Reads the paragraphs of the detail. -/
theorem reads_detail (detail : s.current = .detail) (body : List Phrase) (closed : List Item) :
    Reads inner line { s with blocks := ⟨none, closed⟩ } (body.flatMap PlainDoc.detailLines)
      { s with blocks := ⟨none, closed ++ (body.map Phrase.paragraph).map Item.node⟩ } := by
  induction body generalizing line closed with
  | nil =>
    rw [List.map_nil, List.map_nil, List.append_nil]
    exact Reads.nil
  | cons p rest ih =>
    have phrase := reads_phrase inner line
      (s := { s with blocks := ⟨none, closed⟩ }) (.inl rfl) p
    have later := ih (line + 1 + 1) (closed ++ [.node p.paragraph])
    rw [List.append_assoc] at later
    exact phrase.append ((reads_blank (.inl detail) p closed).append later)

/-! ### Sections -/

/-- The blocks that the text beside a command leaves. -/
def besideBlocks : List Phrase → BlockReader
  | [p] => ⟨some (.paragraph [p.text]), []⟩
  | _ => .empty

theorem feedText_beside (doc : Doc) (dest : Section) (body : List Phrase) (line : Nat) :
    feedText {} (beside body) line (opened doc dest .empty) =
      opened doc dest (besideBlocks body) := by
  rcases body with _ | ⟨p, _ | ⟨q, rest⟩⟩
  · rfl
  · have fed : BlockReader.feed {} .empty ⟨line, .text 0 p.text, p.text⟩ = besideBlocks [p] :=
      BlockReader.feed_phrase (.inl rfl) p line
    simp only [feedText, beside, p.isEmpty_text, feed, opened, fed]
    rfl
  · rfl

/-- A command that a paragraph block starts or ends with. -/
theorem reads_command {c : BlockCommand} {name args : Text} (named : c.isNamed name)
    (ends : EndsName args)
    (performs : ∀ raw, s.perform {} inner c (Text.trim args)
      ⟨line, .command name (Text.trim args), raw⟩ = some s') :
    Reads inner line s [command name args] s' := by
  refine Reads.single (Token.ofLine_command named ends line) ?_
  simp only [BlockCommand.isNamed, Bool.and_eq_true, beq_iff_eq] at named
  obtain ⟨⟨-, known⟩, -⟩ := named
  simp only [next, known]
  exact performs _

variable (inner line) in
theorem reads_below (doc : Doc) (dest : Section) (body : List Phrase) : ∃ blocks : BlockReader,
    blocks.items = (body.map Phrase.paragraph).map Item.node ∧
    Reads inner line (opened doc dest .empty) (below body) (opened doc dest blocks) := by
  have nothing : EndsName [] := ⟨by simp [Text.Unmarked], by simp⟩
  rcases body with _ | ⟨p, _ | ⟨q, rest⟩⟩
  · exact ⟨.empty, rfl, Reads.nil⟩
  · exact ⟨_, items_paragraph p [],
      reads_phrase inner line (s := opened doc dest .empty) (.inl rfl) p⟩
  · obtain ⟨blocks, items, read⟩ := reads_paragraphs inner (line + 1)
      (s := { opened doc dest .empty with parBlock := true }) rfl
      (List.cons_ne_nil p (q :: rest)) []
    refine ⟨blocks, items, ?_⟩
    have start : Reads inner line (opened doc dest .empty) [command "parblock".toList []]
        { opened doc dest .empty with parBlock := true } :=
      reads_command (c := .parBlock) (by decide) nothing fun _ => rfl
    have stop (line : Nat) : Reads inner line { opened doc dest blocks with parBlock := true }
        [command "endparblock".toList []] (opened doc dest blocks) :=
      reads_command (c := .endParBlock) (by decide) nothing fun _ => rfl
    exact (start.append read).append (stop _)

variable (inner line) in
theorem reads_more (doc : Doc) (dest : Section) (body : List Phrase) : ∃ blocks : BlockReader,
    blocks.items = (body.map Phrase.paragraph).map Item.node ∧
    Reads inner line (opened doc dest (besideBlocks body)) (more body)
      (opened doc dest blocks) := by
  rcases body with _ | ⟨p, _ | ⟨q, rest⟩⟩
  · exact reads_below inner line doc dest []
  · exact ⟨_, items_paragraph p [], Reads.nil⟩
  · exact reads_below inner line doc dest (p :: q :: rest)

theorem holds_opened {doc : Doc} {dest : Section} (within : dest.Within doc) {blocks : BlockReader}
    {nodes : List Node} (items : blocks.items = nodes.map Item.node) :
    Holds (dest.add nodes doc) (opened doc dest blocks) :=
  ⟨⟨nodes, items, rfl⟩, within, rfl⟩

/-- A section command and the paragraphs that do not stand beside it. -/
theorem reads_section {c : BlockCommand} {name args : Text} (named : c.isNamed name)
    (ends : EndsName args) {doc : Doc} {dest : Section} (within : dest.Within doc)
    (body : List Phrase)
    (performs : ∀ raw, s.perform {} inner c (Text.trim args)
      ⟨line, .command name (Text.trim args), raw⟩ = some (opened doc dest (besideBlocks body))) :
    ∃ s', Reads inner line s (command name args :: more body) s' ∧
      Holds (dest.add (body.map Phrase.paragraph) doc) s' := by
  obtain ⟨blocks, items, read⟩ := reads_more inner (line + 1) doc dest body
  exact ⟨_, (reads_command named ends performs).append read, holds_opened within items⟩

theorem reads_param {doc : Doc} (holds : Holds doc s) (p : PlainParam) :
    ∃ s', Reads inner line s p.lines s' ∧
      Holds { doc with params := doc.params ++ [p.entry] } s' := by
  have named : BlockCommand.param.isNamed "param".toList := by decide
  have trimmed := beside_trimmed p.body
  have grown : { s.doc with params := s.doc.params ++ [⟨p.name.text, p.direction, []⟩] } =
      s.doc.grow [⟨p.name.text, p.direction, []⟩] [] [] := by simp [Doc.grow]
  have within : (Section.params doc.params.length 1).Within
      (doc.grow [⟨p.name.text, p.direction, []⟩] [] []) := by simp [Section.Within, Doc.grow]
  rw [← Section.add_params_last]
  refine reads_section named (endsName_bracket p.direction (named_unmarked p.name p.body)) within
    p.body fun raw => ?_
  rw [perform, Section.takeDirection_bracket p.direction p.name trimmed]
  simp only [addParams, Section.parameterNames_word p.name trimmed, List.map_cons, List.map_nil]
  rw [enter, grown, holds.turnTo_grown, holds.lengths.1]
  exact congrArg some (feedText_beside _ _ _ _)

theorem reads_retval {doc : Doc} (holds : Holds doc s) (r : PlainRetval) :
    ∃ s', Reads inner line s r.lines s' ∧
      Holds { doc with retvals := doc.retvals ++ [r.entry] } s' := by
  have named : BlockCommand.retval.isNamed "retval".toList := by decide
  have trimmed := beside_trimmed r.body
  have grown : { s.doc with retvals := s.doc.retvals ++ [⟨r.value.text, []⟩] } =
      s.doc.grow [] [⟨r.value.text, []⟩] [] := by simp [Doc.grow]
  have within : (Section.retval doc.retvals.length).Within
      (doc.grow [] [⟨r.value.text, []⟩] []) := by simp [Section.Within, Doc.grow]
  rw [← Section.add_retval_last]
  refine reads_section named (endsName_spaced (named_unmarked r.value r.body)) within
    r.body fun raw => ?_
  rw [perform, addRetval, Text.Trimmed.spaced (.inr (r.value.tight.append_spaced trimmed)),
    Section.takeWord_word r.value trimmed]
  dsimp only
  rw [enter, grown, holds.turnTo_grown, holds.lengths.2.1]
  exact congrArg some (feedText_beside _ _ _ _)

theorem reads_see {doc : Doc} (holds : Holds doc s) (p : Phrase) :
    ∃ s', Reads inner line s (PlainDoc.seeLines p) s' ∧
      Holds { doc with seeAlso := doc.seeAlso ++ [p.paragraph] } s' := by
  have named : BlockCommand.see.isNamed "see".toList := by decide
  have added : { doc with seeAlso := doc.seeAlso ++ [p.paragraph] } =
      Section.seeAlso.add ([p].map Phrase.paragraph) doc := rfl
  have within : Section.seeAlso.Within doc := trivial
  rw [added]
  refine reads_section named (endsName_spaced p.unmarked) within [p] fun raw => ?_
  rw [perform, enter, holds.turnTo, Text.Trimmed.spaced (.inr p.tight)]
  exact congrArg some (feedText_beside doc .seeAlso [p] _)

theorem reads_returns {doc : Doc} (holds : Holds doc s) (body : List Phrase) :
    ∃ s', Reads inner line s (PlainDoc.returnsLines body) s' ∧
      Holds (doc.addReturns (body.map Phrase.paragraph)) s' := by
  have named : BlockCommand.returns.isNamed "return".toList := by decide
  have added : doc.addReturns (body.map Phrase.paragraph) =
      Section.returns.add (body.map Phrase.paragraph) (doc.addReturns []) := by
    unfold Section.add
    split
    · next empty => rw [List.isEmpty_iff.1 empty]
    · simp [Sections.addReturns]
  have within : Section.returns.Within (doc.addReturns []) := trivial
  rw [added]
  refine reads_section named (endsName_spaced (beside_unmarked body)) within body fun raw => ?_
  rw [perform, addReturns, holds.turnTo, (beside_trimmed body).spaced]
  exact congrArg some (feedText_beside (doc.addReturns []) .returns body _)

variable (inner) in
theorem addAdmonition_held {doc : Doc} (holds : Holds doc s) (kind : AdmonitionKind)
    (title : Option Text) (body : List Phrase) (line : Nat) :
    s.addAdmonition {} inner kind title (beside body) line =
      some (opened (doc.grow [] [] [⟨kind, title, []⟩]) (.admonition doc.admonitions.length)
        (besideBlocks body)) := by
  have grown : { s.doc with admonitions := s.doc.admonitions ++ [⟨kind, title, []⟩] } =
      s.doc.grow [] [] [⟨kind, title, []⟩] := by simp [Doc.grow]
  rw [addAdmonition, enter, grown, holds.turnTo_grown, holds.lengths.2.2]
  exact congrArg some (feedText_beside _ _ _ _)

theorem heading_held {doc : Doc} (holds : Holds doc s) (title : Phrase) (line : Nat) :
    s.heading {} inner title.text line =
      some (opened (doc.grow [] [] [⟨.par, some title.text, []⟩])
        (.admonition doc.admonitions.length) .empty) := by
  have added := addAdmonition_held inner holds .par (some title.text) [] line
  rw [heading]
  split
  · rw [title.isEmpty_text]
    exact added
  · rw [title.isEmpty_text]
    exact added

theorem reads_admonition {doc : Doc} (holds : Holds doc s) (a : PlainAdmonition) :
    ∃ s', Reads inner line s a.lines s' ∧
      Holds { doc with admonitions := doc.admonitions ++ [a.entry] } s' := by
  have within : (Section.admonition doc.admonitions.length).Within
      (doc.grow [] [] [⟨a.heading.kind, a.heading.title?, []⟩]) := by
    simp [Section.Within, Doc.grow]
  have plain := endsName_spaced (beside_unmarked a.body)
  have beside := (beside_trimmed a.body).spaced
  have named := a.heading.isNamed
  obtain ⟨heading, body⟩ := a
  rw [PlainAdmonition.entry, ← Section.add_admonition_last]
  cases heading with
  | par title =>
    obtain ⟨blocks, items, read⟩ := reads_below inner (line + 1)
      (doc.grow [] [] [⟨.par, some title.text, []⟩]) (.admonition doc.admonitions.length) body
    refine ⟨_, (reads_command named (endsName_spaced title.unmarked) fun raw => ?_).append read,
      holds_opened within items⟩
    rw [PlainHeading.command, perform, Text.Trimmed.spaced (.inr title.tight)]
    exact heading_held holds title line
  | _ =>
    refine reads_section named plain within body fun raw => ?_
    rw [PlainHeading.command, perform, beside]
    exact addAdmonition_held inner holds _ none body line

/-! ### Whole comments -/

variable (inner line) in
/-- Reads the elements of a section one after another. -/
theorem reads_each {β : Type} (lines : β → List Text) (put : List β → Doc → Doc)
    (none : ∀ doc, put [] doc = doc)
    (more : ∀ b rest doc, put (b :: rest) doc = put rest (put [b] doc))
    (step : ∀ {doc s} (line : Nat) (b : β), Holds doc s →
      ∃ s', Reads inner line s (lines b) s' ∧ Holds (put [b] doc) s')
    {doc : Doc} (holds : Holds doc s) (elements : List β) :
    ∃ s', Reads inner line s (elements.flatMap lines) s' ∧ Holds (put elements doc) s' := by
  induction elements generalizing doc s line with
  | nil => exact ⟨s, Reads.nil, (none doc).symm ▸ holds⟩
  | cons b rest ih =>
    obtain ⟨s₁, read, held⟩ := step line b holds
    obtain ⟨s₂, later, done⟩ := ih (line + (lines b).length) held
    exact ⟨s₂, read.append later, (more b rest doc).symm ▸ done⟩

theorem reads_brief (p : Phrase) :
    Reads inner line start [command "brief".toList (spaced p.text), []]
      (opened { brief := some p.paragraph } .detail .empty) := by
  have named : BlockCommand.brief.isNamed "brief".toList := by decide
  have fresh : Holds {} (opened {} .detail .empty) := ⟨⟨[], rfl, rfl⟩, trivial, rfl⟩
  have delivered : Holds { brief := some p.paragraph }
      (opened {} .brief ⟨none, [.node p.paragraph]⟩) :=
    ⟨⟨[p.paragraph], rfl, rfl⟩, trivial, rfl⟩
  have marked : Reads inner line start [command "brief".toList (spaced p.text)]
      (opened {} .brief (besideBlocks [p])) := by
    refine reads_command named (endsName_spaced p.unmarked) fun raw => ?_
    rw [perform, Text.Trimmed.spaced (.inr p.tight)]
    refine Eq.trans ?_ (congrArg some (feedText_beside {} .brief [p] line))
    exact congrArg (Option.map _) (fresh.turnTo .brief)
  have ended : Reads inner (line + 1) (opened {} .brief (besideBlocks [p])) [[]]
      (opened { brief := some p.paragraph } .detail .empty) := by
    refine Reads.single (Token.ofLine_unmarked ?_ _) ?_
    · simp [Text.Unmarked]
    · have closed : BlockReader.feed {} (besideBlocks [p]) (Token.plain (line + 1) []) =
          ⟨none, [.node p.paragraph]⟩ := blank_paragraph p [] (line + 1)
      have blank : (Token.plain (line + 1) []).kind = .blank := rfl
      simp only [next, blank, feed, opened, closed]
      exact (if_neg (by simp)).trans (delivered.turnTo .detail)
  exact marked.append ended

/-- Reads on from what is held. -/
theorem reads_more_sections {doc doc' : Doc} {a b : List Text}
    (here : ∃ s', Reads inner line s a s' ∧ Holds doc s')
    (later : ∀ {s} (line : Nat), Holds doc s → ∃ s', Reads inner line s b s' ∧ Holds doc' s') :
    ∃ s', Reads inner line s (a ++ b) s' ∧ Holds doc' s' := by
  obtain ⟨s₁, read, held⟩ := here
  obtain ⟨s₂, more, done⟩ := later (line + a.length) held
  exact ⟨s₂, read.append more, done⟩

variable (inner) in
theorem reads_lines (d : PlainDoc) : ∃ s, Reads inner 0 start d.lines s ∧ Holds d.doc s := by
  have front : ∃ s, Reads inner 0 start ([command "brief".toList (spaced d.brief.text), []] ++
      d.detail.flatMap PlainDoc.detailLines) s ∧
      Holds { brief := some d.brief.paragraph, detail := d.detail.map Phrase.paragraph } s := by
    have detail := reads_detail inner (0 + 2)
      (s := opened { brief := some d.brief.paragraph } .detail .empty) rfl d.detail []
    refine ⟨_, (reads_brief d.brief).append detail, ⟨_, rfl, ?_⟩, trivial, rfl⟩
    unfold Section.add
    split
    · next empty => rw [List.isEmpty_iff.1 empty]; rfl
    · rfl
  have params {doc : Doc} {s : SectionReader} (line : Nat) (holds : Holds doc s) :=
    reads_each inner line PlainParam.lines
      (fun ps doc => { doc with params := doc.params ++ ps.map PlainParam.entry })
      (by simp) (by simp) (fun _ p held => reads_param held p) holds d.params
  have retvals {doc : Doc} {s : SectionReader} (line : Nat) (holds : Holds doc s) :=
    reads_each inner line PlainRetval.lines
      (fun rs doc => { doc with retvals := doc.retvals ++ rs.map PlainRetval.entry })
      (by simp) (by simp) (fun _ r held => reads_retval held r) holds d.retvals
  have seeAlso {doc : Doc} {s : SectionReader} (line : Nat) (holds : Holds doc s) :=
    reads_each inner line PlainDoc.seeLines
      (fun ps doc => { doc with seeAlso := doc.seeAlso ++ ps.map Phrase.paragraph })
      (by simp) (by simp) (fun _ p held => reads_see held p) holds d.seeAlso
  have admonitions {doc : Doc} {s : SectionReader} (line : Nat) (holds : Holds doc s) :=
    reads_each inner line PlainAdmonition.lines
      (fun as doc =>
        { doc with admonitions := doc.admonitions ++ as.map PlainAdmonition.entry })
      (by simp) (by simp) (fun _ a held => reads_admonition held a) holds d.admonitions
  have returns {doc : Doc} (absent : doc.returns = none) {s : SectionReader} (line : Nat)
      (holds : Holds doc s) :
      ∃ s', Reads inner line s (d.returns.toList.flatMap PlainDoc.returnsLines) s' ∧
        Holds { doc with returns := d.returns.map fun body => body.map Phrase.paragraph } s' := by
    cases d.returns with
    | none =>
      rw [Option.map_none, ← absent]
      exact ⟨s, Reads.nil, holds⟩
    | some body => simpa [Sections.addReturns, absent] using reads_returns holds body
  obtain ⟨s, read, holds⟩ := reads_more_sections (reads_more_sections (reads_more_sections
    (reads_more_sections (reads_more_sections front params) (returns rfl)) retvals) seeAlso)
      admonitions
  exact ⟨s, read, by simpa [PlainDoc.doc] using holds⟩

theorem complete_held {doc : Doc} (holds : Holds doc s) (brief : doc.brief.isSome) :
    s.complete {} inner = some (opened doc s.current .empty) := by
  rw [complete, holds.turnTo]
  simp [opened, brief]

end SectionReader

/-- Documentation is read back from its lines, and nothing else is found there. -/
theorem read_writtenSections (d : PlainDoc) :
    Documentation.ofLines {} d.lines = .ok ⟨d.doc, [], []⟩ := by
  have tokens : tokenize d.lines = .ok (Token.ofLines 0 none d.lines) := by
    rw [tokenize, ControlCharacter.find?_eq_none d.printable]
  obtain ⟨s, reads, holds⟩ := SectionReader.reads_lines (Blocks.parse {}) d
  have read : SectionReader.read {} (Blocks.parse {}) (Token.ofLines 0 none d.lines) =
      some (SectionReader.opened d.doc s.current .empty) :=
    (congrArg (Option.bind · _) reads.read).trans (SectionReader.complete_held holds rfl)
  rw [Documentation.ofLines, tokens]
  dsimp only
  rw [read]
  rfl

example :
    let a : Word := ⟨['a'], by simp, by simp⟩
    let b : Phrase := ⟨⟨['b'], by simp, by simp⟩, []⟩
    (PlainDoc.mk b [b] [⟨a, .inputOutput, [b]⟩] (some [b, b]) [⟨a, []⟩] [b]
        [⟨.par b, [b]⟩]).lines =
      ["@brief b", "", "b", "", "@param[in,out] a b", "@return", "@parblock", "b", "", "b",
        "@endparblock", "@retval a", "@see b", "@par b", "b"].map String.toList := by
  decide

end DocComment
