import DocComment.Proofs.Section.RoundTrip

/-!
# What a token does to the sections

A token belongs to the text of the section that is open, or the reader turns to another section.
Then the open section is given all that has been read, and a command may add elements without a
body, to which the text after it belongs.
-/

set_option autoImplicit false

namespace DocComment

/-- Whether a block command begins another section. -/
def BlockCommand.turns : BlockCommand → Bool
  | .parBlock | .endParBlock | .listItem | .dotFile => false
  | _ => true

/-- Whether a token is the command that marks a brief description. -/
def Token.MarksBrief (t : Token) : Prop :=
  ∃ name args, t.kind = .command name args ∧ BlockCommand.ofName? name = some .brief

/-- The parameters that a command introduces. -/
structure ParameterCommand where
  direction : ParamDirection
  names : List Text
  deriving DecidableEq

/-- The elements of the parameters of a command, with one body for all of them. -/
def ParameterCommand.entries (c : ParameterCommand) (body : List Node) : List (ParamEntry Node) :=
  c.names.map fun name => ⟨name, c.direction, body⟩

/-- The parameters that a command introduces with some arguments. -/
def BlockCommand.parameters? (c : BlockCommand) (args : Text) : Option ParameterCommand :=
  match c with
  | .param =>
    let (direction, rest) := Section.takeDirection args
    some ⟨direction, (Section.parameterNames rest).1⟩
  | .templateParam => some ⟨.unspecified, (Section.parameterNames args).1⟩
  | _ => none

/-- A command that begins no section introduces no parameters. -/
theorem BlockCommand.parameters?_of_stays {c : BlockCommand} (stays : c.turns = false)
    (args : Text) : c.parameters? args = none := by
  cases c with
  | param | templateParam => cases stays
  | _ => rfl

/-- The parameters that a token introduces. -/
def Token.parameters? (t : Token) : Option ParameterCommand :=
  match t.kind with
  | .command name args => (BlockCommand.ofName? name).bind (·.parameters? args)
  | _ => none

/-- Blocks that are handed over, and the section that they go to. -/
structure Handover where
  dest : Section
  nodes : List Node

/-- The elements that a command adds. They have no body yet. -/
structure NewElements where
  params : List (ParamEntry Node) := []
  retvals : List (RetvalEntry Node) := []
  admonitions : List (Admonition Node) := []
  bare_params : params.flatMap ParamEntry.body = [] := by simp
  bare_retvals : retvals.flatMap RetvalEntry.body = [] := by simp
  bare_admonitions : admonitions.flatMap Admonition.body = [] := by simp

/-- New elements stand behind the others. -/
def NewElements.join (new : NewElements) (doc : Doc) : Doc :=
  doc.grow new.params new.retvals new.admonitions

theorem NewElements.join_none (doc : Doc) : NewElements.join {} doc = doc := by
  simp [join, Doc.grow]

theorem NewElements.contents_join (new : NewElements) (doc : Doc) :
    (new.join doc).contents = doc.contents := by
  simp only [Sections.contents, join, Doc.grow, List.flatMap_append, new.bare_params,
    new.bare_retvals, new.bare_admonitions, List.append_nil]

/-- Whether new elements and the section that is turned to are those of a parameter command, behind
`count` parameters, or without one have nothing to do with parameters. -/
def NewElements.Serves (new : NewElements) (dest : Section) (count : Nat) :
    Option ParameterCommand → Prop
  | some c => new.params = c.entries [] ∧ dest = .params count c.names.length
  | none => new.params = [] ∧ ∀ first n, dest ≠ .params first n

namespace SectionReader

section

variable (options : Options) (inner : BlockParser)

/-- The blocks that have been read, and the section that is open. -/
def pending (s : SectionReader) : Option Handover :=
  (Item.completeAll inner s.blocks.items).map fun blocks => ⟨s.current, blocks.nodes⟩

/-- What is handed over at a token: at a command that begins another section what came before
it, and at a blank line that leads out of a section what came up to it. -/
def handover? (t : Token) (s : SectionReader) : Option (List Handover) :=
  match t.kind with
  | .command name _ =>
    if (BlockCommand.ofName? name).any BlockCommand.turns then (s.pending inner).map ([·])
    else some []
  | .blank =>
    if s.current = .detail ∨ s.parBlock then some []
    else ((s.feed options t).pending inner).map ([·])
  | _ => some []

end

/-- A reader that has gone on inside a section. -/
structure Stays (s s' : SectionReader) : Prop where
  doc : s'.doc = s.doc
  current : s'.current = s.current
  explicit : s'.explicitBrief = s.explicitBrief

/-- A reader that has turned to the section `dest`. The new elements have joined the others before
the open section was given what had been read; a return section is there from its command on. -/
structure TurnsTo (inner : BlockParser) (new : NewElements) (dest : Section)
    (s s' : SectionReader) : Prop where
  given : ∃ blocks, dest.Within (new.join s.doc) ∧
    Item.completeAll inner s.blocks.items = some blocks ∧
    (let doc := s.current.add blocks.nodes (new.join s.doc)
    s'.doc = doc ∨ s'.doc = doc.addReturns [])
  current : s'.current = dest
  explicit : s'.explicitBrief = s.explicitBrief

section

variable {options : Options} {inner : BlockParser} {s s' : SectionReader} {dest : Section}
  {new : NewElements} {t : Text} {line : Nat}

theorem Stays.feedText (h : Stays s s') (t : Text) (line : Nat) :
    Stays s (feedText options t line s') := by
  unfold SectionReader.feedText
  split
  · exact h
  · exact ⟨h.doc, h.current, h.explicit⟩

theorem TurnsTo.stays {s'' : SectionReader} (h : TurnsTo inner new dest s s')
    (later : Stays s' s'') : TurnsTo inner new dest s s'' where
  given := by
    rw [later.doc]
    exact h.given
  current := later.current.trans h.current
  explicit := later.explicit.trans h.explicit

theorem turnTo_joined {doc : Doc} (turned : turnTo inner dest { s with doc } = some s')
    (joined : doc = new.join s.doc) (there : dest.Within doc) : TurnsTo inner new dest s s' := by
  obtain ⟨blocks, complete, turned⟩ := Option.bind_eq_some_iff.mp turned
  obtain rfl := Option.some.inj turned
  subst joined
  exact ⟨⟨blocks, there, complete, .inl rfl⟩, rfl, rfl⟩

theorem turnTo_turns (turned : s.turnTo inner dest = some s') (there : dest.Within s.doc) :
    TurnsTo inner {} dest s s' :=
  turnTo_joined turned (NewElements.join_none s.doc).symm there

theorem enter_joined {doc : Doc}
    (entered : enter options inner dest t line { s with doc } = some s')
    (joined : doc = new.join s.doc) (there : dest.Within doc) : TurnsTo inner new dest s s' := by
  obtain ⟨s₁, turned, rfl⟩ := Option.map_eq_some_iff.mp entered
  exact (turnTo_joined turned joined there).stays (Stays.feedText ⟨rfl, rfl, rfl⟩ t line)

theorem enter_turns (entered : s.enter options inner dest t line = some s')
    (there : dest.Within s.doc) : TurnsTo inner {} dest s s' :=
  enter_joined entered (NewElements.join_none s.doc).symm there

theorem addDirective_turns {d : Directive} (added : s.addDirective inner d = some s') :
    TurnsTo inner {} .detail s s' := by
  obtain ⟨s₁, turned, rfl⟩ := Option.map_eq_some_iff.mp added
  exact (turnTo_turns turned trivial).stays ⟨rfl, rfl, rfl⟩

theorem addParams_turns {direction : ParamDirection}
    (added : s.addParams options inner direction t line = some s') :
    let c : ParameterCommand := ⟨direction, (Section.parameterNames t).1⟩
    ∃ new : NewElements, new.params = c.entries [] ∧
      TurnsTo inner new (.params s.doc.params.length c.names.length) s s' := by
  intro c
  let new : NewElements :=
    { params := c.entries []
      bare_params := by simp [ParameterCommand.entries, List.flatMap_map] }
  have joined : { s.doc with params := s.doc.params ++ c.entries [] } = new.join s.doc := by
    simp [NewElements.join, Doc.grow, new]
  refine ⟨new, rfl, enter_joined added joined ?_⟩
  simp [Section.Within, c]

theorem addRetval_turns (added : s.addRetval options inner t line = some s') :
    ∃ (new : NewElements) (index : Nat), new.params = [] ∧
      TurnsTo inner new (.retval index) s s' := by
  let new : NewElements := { retvals := [⟨(Section.takeWord t).1, []⟩] }
  have joined : { s.doc with retvals := s.doc.retvals ++ new.retvals } = new.join s.doc := by
    simp [NewElements.join, Doc.grow, new]
  refine ⟨new, _, rfl, enter_joined added joined ?_⟩
  simp [Section.Within]

theorem addAdmonition_turns {kind : AdmonitionKind} {title : Option Text}
    (added : s.addAdmonition options inner kind title t line = some s') :
    ∃ (new : NewElements) (index : Nat), new.params = [] ∧
      TurnsTo inner new (.admonition index) s s' := by
  let new : NewElements := { admonitions := [⟨kind, title, []⟩] }
  have joined : { s.doc with admonitions := s.doc.admonitions ++ new.admonitions } =
      new.join s.doc := by
    simp [NewElements.join, Doc.grow, new]
  refine ⟨new, _, rfl, enter_joined added joined ?_⟩
  simp [Section.Within]

theorem lastPar?_lt {admonitions : List (Admonition Node)} {i : Nat}
    (found : lastPar? admonitions = some i) : i < admonitions.length := by
  obtain ⟨j, last, rfl⟩ := Option.map_eq_some_iff.mp found
  have := (List.findIdx?_eq_some_iff_getElem.mp last).1
  rw [List.length_reverse] at this
  omega

theorem heading_turns (headed : s.heading options inner t line = some s') :
    ∃ (new : NewElements) (index : Nat), new.params = [] ∧
      TurnsTo inner new (.admonition index) s s' := by
  unfold heading at headed
  split at headed
  next index found =>
    split at headed
    · exact ⟨{}, index, rfl, enter_turns headed (lastPar?_lt found)⟩
    · exact addAdmonition_turns headed
  · exact addAdmonition_turns headed

theorem addReturns_turns (added : s.addReturns options inner t line = some s') :
    TurnsTo inner {} .returns s s' := by
  obtain ⟨s₁, turned, rfl⟩ := Option.map_eq_some_iff.mp added
  have turns : TurnsTo inner {} .returns s { s₁ with doc := s₁.doc.addReturns [] } := by
    obtain ⟨blocks, complete, turned⟩ := Option.bind_eq_some_iff.mp turned
    obtain rfl := Option.some.inj turned
    refine ⟨⟨blocks, trivial, complete, .inr ?_⟩, rfl, rfl⟩
    rw [NewElements.join_none]
  exact turns.stays (Stays.feedText ⟨rfl, rfl, rfl⟩ t line)

/-- A command that begins another section turns the reader to it; only one command marks the brief
description, and no other turns to it. The parameters among the new elements are those that the
command introduces. -/
theorem perform_turns {c : BlockCommand} (turns : c.turns = true) {args : Text} {token : Token}
    (performed : s.perform options inner c args token = some s') :
    ∃ new dest explicitBrief, TurnsTo inner new dest { s with explicitBrief } s' ∧
      new.Serves dest s.doc.params.length (c.parameters? args) ∧
      (c ≠ .brief → dest ≠ .brief ∧ explicitBrief = s.explicitBrief) := by
  cases c with
  | brief =>
    exact ⟨{}, .brief, true, enter_turns performed trivial, ⟨rfl, nofun⟩,
      fun h => absurd rfl h⟩
  | details | see =>
    exact ⟨{}, _, _, enter_turns performed trivial, ⟨rfl, nofun⟩, fun _ => ⟨nofun, rfl⟩⟩
  | param | templateParam =>
    obtain ⟨new, entries, turned⟩ := addParams_turns performed
    exact ⟨new, _, _, turned, ⟨entries, rfl⟩, fun _ => ⟨nofun, rfl⟩⟩
  | returns =>
    exact ⟨{}, _, _, addReturns_turns performed, ⟨rfl, nofun⟩,
      fun _ => ⟨nofun, rfl⟩⟩
  | retval =>
    obtain ⟨new, index, none, turned⟩ := addRetval_turns performed
    exact ⟨new, _, _, turned, ⟨none, nofun⟩, fun _ => ⟨nofun, rfl⟩⟩
  | warning | note | todo =>
    obtain ⟨new, index, none, turned⟩ := addAdmonition_turns performed
    exact ⟨new, _, _, turned, ⟨none, nofun⟩, fun _ => ⟨nofun, rfl⟩⟩
  | par =>
    obtain ⟨new, index, none, turned⟩ := heading_turns performed
    exact ⟨new, _, _, turned, ⟨none, nofun⟩, fun _ => ⟨nofun, rfl⟩⟩
  | defineGroup | extendGroup | joinGroups | openScope | closeScope | file =>
    exact ⟨{}, _, _, addDirective_turns performed, ⟨rfl, nofun⟩,
      fun _ => ⟨nofun, rfl⟩⟩
  | parBlock | endParBlock | listItem | dotFile => cases turns

/-- A command that belongs to the text of a section turns to no other. -/
theorem perform_stays {c : BlockCommand} (stays : c.turns = false) {args : Text} {token : Token}
    (performed : s.perform options inner c args token = some s') : Stays s s' := by
  cases c with
  | parBlock =>
    obtain rfl := Option.some.inj performed
    have opened : Stays s { s with parBlock := true } := ⟨rfl, rfl, rfl⟩
    exact opened.feedText args token.line
  | endParBlock | listItem | dotFile =>
    obtain rfl := Option.some.inj performed
    exact ⟨rfl, rfl, rfl⟩
  | _ => cases stays

/-- At a token a reader goes on inside its section and hands nothing over, or it hands over what has
been read and turns to another section. -/
theorem next_cases {token : Token} (step : s.next options inner token = some s') :
    (Stays s s' ∧ s.handover? options inner token = some [] ∧ token.parameters? = none) ∨
      ∃ new dest r, TurnsTo inner new dest r s' ∧ r.doc = s.doc ∧ r.current = s.current ∧
        s.handover? options inner token = (r.pending inner).map ([·]) ∧
        new.Serves dest s.doc.params.length token.parameters? ∧
        (¬token.MarksBrief → dest ≠ .brief ∧ r.explicitBrief = s.explicitBrief) := by
  unfold next at step
  unfold handover? Token.parameters?
  cases kind : token.kind with
  | command name args =>
    rw [kind] at step
    dsimp only at step ⊢
    cases named : BlockCommand.ofName? name with
    | none =>
      rw [named] at step
      obtain rfl := Option.some.inj step
      exact .inl ⟨⟨rfl, rfl, rfl⟩, rfl, rfl⟩
    | some c =>
      rw [named] at step
      cases turns : c.turns with
      | true =>
        obtain ⟨new, dest, explicitBrief, turned, serves, away⟩ := perform_turns turns step
        refine .inr ⟨new, dest, { s with explicitBrief }, turned, rfl, rfl, ?_, serves,
          fun unmarked => ?_⟩
        · rw [Option.any_some, turns, if_pos rfl]
          rfl
        · apply away
          rintro rfl
          exact unmarked ⟨name, args, kind, named⟩
      | false =>
        exact .inl ⟨perform_stays turns step, by simp [turns], c.parameters?_of_stays turns args⟩
  | blank =>
    rw [kind] at step
    by_cases stays : s.current = .detail ∨ s.parBlock = true
    · obtain rfl := Option.some.inj ((if_pos stays).symm.trans step)
      exact .inl ⟨⟨rfl, rfl, rfl⟩, if_pos stays, rfl⟩
    · have turned := (if_neg stays).symm.trans step
      exact .inr ⟨{}, .detail, s.feed options token, turnTo_turns turned trivial, rfl, rfl,
        if_neg stays, ⟨rfl, nofun⟩, fun _ => ⟨nofun, rfl⟩⟩
  | _ =>
    rw [kind] at step
    obtain rfl := Option.some.inj step
    exact .inl ⟨⟨rfl, rfl, rfl⟩, rfl, rfl⟩

end

end SectionReader

end DocComment
