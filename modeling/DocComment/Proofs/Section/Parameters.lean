import DocComment.Proofs.Section.Delivered

/-!
# Parameters that are named together

The parameters of a comment are those that its commands name, in order, and all that one command
names share a body, whatever comes in between. The names of a command are read off its arguments as
they were written.
-/

set_option autoImplicit false

namespace DocComment

/-! ## Names -/

namespace Section

/-- Whether a text can be the name of a parameter among others. -/
structure ParameterName (name : Text) : Prop where
  nonempty : name ≠ []
  solid : name.Solid
  single : ',' ∉ name

theorem takeWord_solid {word : Text} (solid : word.Solid) (nonempty : word ≠ []) (t : Text) :
    takeWord (word ++ ' ' :: t) = (word, Text.trimStart t) := by
  have start : Text.trimStart (word ++ ' ' :: t) = word ++ ' ' :: t := by
    refine Text.trimStart_eq_self fun c first => ?_
    rw [List.head?_append_of_ne_nil _ nonempty] at first
    exact solid c (List.mem_of_mem_head? first)
  have split : Text.splitFirst? Text.isSpace (word ++ ' ' :: t) = some (word, t) :=
    Text.splitFirst?_at solid rfl t
  unfold takeWord
  dsimp only
  rw [start, split]

/-- Names with commas between them come apart again. -/
theorem filter_splitOn {names : List Text} (plain : ∀ name ∈ names, ParameterName name)
    (some : names ≠ []) :
    (([','].intercalate names).splitOn ',').filter (fun name => !name.isEmpty) = names := by
  rw [List.splitOn_intercalate ',' (fun name mem => (plain name mem).single) some,
    List.filter_eq_self]
  intro name mem
  simpa using (plain name mem).nonempty

theorem parameterNames_last {word : Text} (solid : word.Solid) (nonempty : word ≠ [])
    (last : word.getLast? ≠ some ',') {t : Text} (h : ∀ c ∈ t.head?, Text.isSpace c = false) :
    parameterNames (word ++ ' ' :: t) =
      ((word.splitOn ',').filter fun name => !name.isEmpty, t) := by
  rw [parameterNames, takeWord_solid solid nonempty, dif_neg fun more => last more.1,
    Text.trimStart_eq_self h]

theorem parameterNames_more {name : Text} (plain : ParameterName name) {t : Text} (more : t ≠ [])
    (h : ∀ c ∈ t.head?, Text.isSpace c = false) :
    parameterNames (name ++ ',' :: ' ' :: t) =
      (name :: (parameterNames t).1, (parameterNames t).2) := by
  have solid : Text.Solid (name ++ [',']) :=
    List.forall_mem_append.mpr ⟨plain.solid, List.forall_mem_singleton.mpr rfl⟩
  have alone : ((name ++ [',']).splitOn ',').filter (fun name => !name.isEmpty) = [name] := by
    have joined : name ++ [','] = [','].intercalate [name, []] := by simp [List.intercalate]
    have bare : ∀ piece ∈ [name, []], ',' ∉ piece := by simpa using plain.single
    rw [joined, List.splitOn_intercalate ',' bare (by simp)]
    simp [plain.nonempty]
  rw [← List.singleton_append (l := ' ' :: t), ← List.append_assoc, parameterNames,
    takeWord_solid solid (by simp), Text.trimStart_eq_self h, dif_pos ⟨by simp, more⟩, alone]
  rfl

variable {names : List Text} {description : Text}

/-- Names with commas between them are one word, which ends in no comma. -/
theorem joined_names (plain : ∀ name ∈ names, ParameterName name) (some : names ≠ []) :
    let word : Text := [','].intercalate names
    word.Solid ∧ word ≠ [] ∧ word.getLast? ≠ Option.some ',' := by
  induction names with
  | nil => exact absurd rfl some
  | cons name rest ih =>
    obtain ⟨here, later⟩ := List.forall_mem_cons.mp plain
    cases rest with
    | nil =>
      rw [List.intercalate_singleton]
      exact ⟨here.solid, here.nonempty, fun comma => here.single (List.mem_of_getLast? comma)⟩
    | cons next rest =>
      obtain ⟨solid, nonempty, last⟩ := ih later (by simp)
      rw [List.intercalate_cons_cons]
      refine ⟨?_, by simp, ?_⟩
      · refine List.forall_mem_append.mpr ⟨List.forall_mem_append.mpr ⟨here.solid, ?_⟩, solid⟩
        exact List.forall_mem_singleton.mpr rfl
      · rwa [List.getLast?_append_of_ne_nil _ nonempty]

theorem parameterNames_commas (plain : ∀ name ∈ names, ParameterName name) (some : names ≠ [])
    (h : ∀ c ∈ description.head?, Text.isSpace c = false) :
    parameterNames ([','].intercalate names ++ ' ' :: description) = (names, description) := by
  obtain ⟨solid, nonempty, last⟩ := joined_names plain some
  rw [parameterNames_last solid nonempty last h, filter_splitOn plain some]

theorem parameterNames_spaced (plain : ∀ name ∈ names, ParameterName name) (some : names ≠ [])
    (h : ∀ c ∈ description.head?, Text.isSpace c = false) :
    parameterNames ([',', ' '].intercalate names ++ ' ' :: description) = (names, description) := by
  induction names with
  | nil => exact absurd rfl some
  | cons name rest ih =>
    obtain ⟨here, later⟩ := List.forall_mem_cons.mp plain
    cases rest with
    | nil => simpa using parameterNames_commas plain some h
    | cons next rest =>
      obtain ⟨named, -⟩ := List.forall_mem_cons.mp later
      obtain ⟨more, front⟩ : ∃ more, [',', ' '].intercalate (next :: rest) = next ++ more := by
        cases rest with
        | nil => exact ⟨[], by simp⟩
        | cons third rest => exact ⟨_, by rw [List.intercalate_cons_cons, List.append_assoc]⟩
      have first : ∀ c ∈ ([',', ' '].intercalate (next :: rest) ++ ' ' :: description).head?,
          Text.isSpace c = false := by
        rw [front, List.append_assoc, List.head?_append_of_ne_nil _ named.nonempty]
        exact fun c mem => named.solid c (List.mem_of_mem_head? mem)
      have whole : [',', ' '].intercalate (name :: next :: rest) ++ ' ' :: description =
          name ++ ',' :: ' ' :: ([',', ' '].intercalate (next :: rest) ++ ' ' :: description) := by
        rw [List.intercalate_cons_cons]
        simp
      rw [whole, parameterNames_more here (by simp) first, ih later (by simp)]

end Section

/-! ## Groups -/

/-- A parameter command and the body that its parameters share. -/
structure ParameterGroup where
  command : ParameterCommand
  body : List Node

namespace ParameterGroup

def entries (group : ParameterGroup) : List (ParamEntry Node) := group.command.entries group.body

theorem names_entries (group : ParameterGroup) :
    group.entries.map ParamEntry.name = group.command.names := by
  simp [entries, ParameterCommand.entries, Function.comp_def]

theorem names_flatMap (groups : List ParameterGroup) :
    (groups.flatMap entries).map ParamEntry.name =
      (groups.map command).flatMap ParameterCommand.names := by
  simp only [List.map_flatMap, List.flatMap_map, names_entries]

theorem length_flatMap (groups : List ParameterGroup) :
    (groups.flatMap entries).length =
      ((groups.map command).flatMap ParameterCommand.names).length := by
  rw [← names_flatMap, List.length_map]

end ParameterGroup

namespace Section

/-- Parameters of which those in the middle are added to. -/
theorem addParams_middle (front middle back : List (ParamEntry Node)) (nodes : List Node) :
    addParams front.length middle.length nodes (front ++ (middle ++ back)) =
      front ++ (middle.map (fun p => { p with body := p.body ++ nodes }) ++ back) := by
  induction front with
  | nil =>
    induction middle with
    | nil => exact addParams_zero 0 nodes back
    | cons p middle ih => exact (addParams_front _ nodes p _).trans (congrArg _ ih)
  | cons p front ih => exact (addParams_behind _ _ nodes p _).trans (congrArg (p :: ·) ih)

theorem params_add_params (first count : Nat) (nodes : List Node) (doc : Doc) :
    ((params first count).add nodes doc).params = addParams first count nodes doc.params := by
  unfold add
  split
  next empty =>
    rw [List.isEmpty_iff.mp empty]
    exact List.ext_getElem (by simp [addParams]) fun i _ _ => by simp [addParams]
  · rfl

/-- Only a section of parameters adds to parameters. -/
theorem params_add {dest : Section} (other : ∀ first count, dest ≠ .params first count)
    (nodes : List Node) (doc : Doc) : (dest.add nodes doc).params = doc.params := by
  unfold add
  split
  · rfl
  · cases dest with
    | params first count => exact absurd rfl (other first count)
    | brief =>
      cases nodes with
      | nil => rfl
      | cons node rest => cases h : doc.brief <;> simp [addBrief, h]
    | _ => rfl

/-- Whether a section of parameters is that of one of some commands. -/
def Belongs (commands : List ParameterCommand) : Section → Prop
  | .params first count => ∃ before c after, commands = before ++ c :: after ∧
      first = (before.flatMap ParameterCommand.names).length ∧ count = c.names.length
  | _ => True

theorem belongs_of_other {dest : Section} (other : ∀ first count, dest ≠ .params first count)
    (commands : List ParameterCommand) : dest.Belongs commands := by
  cases dest with
  | params first count => exact absurd rfl (other first count)
  | _ => trivial

theorem Belongs.append {commands : List ParameterCommand} {dest : Section}
    (h : dest.Belongs commands) (more : List ParameterCommand) :
    dest.Belongs (commands ++ more) := by
  cases dest with
  | params first count =>
    obtain ⟨before, c, after, rfl, start, size⟩ := h
    exact ⟨before, c, after ++ more, by simp, start, size⟩
  | _ => trivial

end Section

/-- Whether the parameters of some documentation are those of some commands, in groups. -/
def Doc.Groups (commands : List ParameterCommand) (doc : Doc) : Prop :=
  ∃ groups : List ParameterGroup, groups.map ParameterGroup.command = commands ∧
    doc.params = groups.flatMap ParameterGroup.entries

theorem Doc.Groups.length {commands : List ParameterCommand} {doc : Doc} (h : doc.Groups commands) :
    doc.params.length = (commands.flatMap ParameterCommand.names).length := by
  obtain ⟨groups, rfl, params⟩ := h
  rw [params, ParameterGroup.length_flatMap]

/-- What a section is given goes to all parameters of a group or to none. -/
theorem Doc.Groups.add {commands : List ParameterCommand} {doc : Doc} (h : doc.Groups commands)
    {dest : Section} (place : dest.Belongs commands) (nodes : List Node) :
    Doc.Groups commands (dest.add nodes doc) := by
  by_cases other : ∀ first count, dest ≠ .params first count
  · obtain ⟨groups, same, params⟩ := h
    exact ⟨groups, same, (Section.params_add other nodes doc).trans params⟩
  obtain ⟨first, count, rfl⟩ : ∃ first count, dest = .params first count := by simpa using other
  obtain ⟨groups, same, params⟩ := h
  obtain ⟨before, c, after, rfl, rfl, rfl⟩ := place
  obtain ⟨front, others, rfl, rfl, behind⟩ := List.map_eq_append_iff.mp same
  obtain ⟨group, back, rfl, rfl, rfl⟩ := List.map_eq_cons_iff.mp behind
  refine ⟨front ++ { group with body := group.body ++ nodes } :: back, by simp, ?_⟩
  have size : group.command.names.length = group.entries.length := by
    rw [← group.names_entries, List.length_map]
  have shared : group.entries.map (fun p => { p with body := p.body ++ nodes }) =
      ParameterGroup.entries { group with body := group.body ++ nodes } := by
    simp [ParameterGroup.entries, ParameterCommand.entries]
  rw [Section.params_add_params, params, ← ParameterGroup.length_flatMap, size,
    List.flatMap_append, List.flatMap_cons, Section.addParams_middle, shared, List.flatMap_append,
    List.flatMap_cons]

namespace SectionReader

/-- Whether the parameters that have been read are those of some commands, and the open section
is that of one of them if it is one of parameters. -/
structure Grouped (commands : List ParameterCommand) (s : SectionReader) : Prop where
  groups : s.doc.Groups commands
  place : s.current.Belongs commands

variable {options : Options} {inner : BlockParser} {s s' : SectionReader}
  {commands : List ParameterCommand}

theorem Grouped.stays (h : s.Grouped commands) (stays : Stays s s') : s'.Grouped commands where
  groups := by
    rw [stays.doc]
    exact h.groups
  place := by
    rw [stays.current]
    exact h.place

/-- New parameters make a group of their own behind the others. -/
theorem Grouped.turned {new : NewElements} {dest : Section} {introduced : Option ParameterCommand}
    (h : s.Grouped commands) (turned : TurnsTo inner new dest s s')
    (serves : new.Serves dest s.doc.params.length introduced) :
    s'.Grouped (commands ++ introduced.toList) := by
  have joined : Doc.Groups (commands ++ introduced.toList) (new.join s.doc) := by
    obtain ⟨groups, same, params⟩ := h.groups
    cases introduced with
    | none =>
      obtain ⟨none, -⟩ := serves
      exact ⟨groups, by simpa using same, by simpa [NewElements.join, Doc.grow, none] using params⟩
    | some c =>
      obtain ⟨entries, -⟩ := serves
      refine ⟨groups ++ [⟨c, []⟩], by simp [same], ?_⟩
      simp [NewElements.join, Doc.grow, entries, params, ParameterGroup.entries]
  obtain ⟨blocks, -, -, doc⟩ := turned.given
  have given := joined.add (h.place.append introduced.toList) blocks.nodes
  refine ⟨?_, ?_⟩
  · obtain doc | doc := doc
    · rwa [doc]
    · rw [doc]
      exact given
  · rw [turned.current]
    cases introduced with
    | none => exact Section.belongs_of_other serves.2 _
    | some c =>
      obtain ⟨-, rfl⟩ := serves
      exact ⟨commands, c, [], rfl, h.groups.length, rfl⟩

/-- One token. -/
theorem Grouped.next (h : s.Grouped commands) {t : Token}
    (step : s.next options inner t = some s') :
    s'.Grouped (commands ++ t.parameters?.toList) := by
  rcases next_cases step with ⟨stays, -, none⟩ | ⟨new, dest, r, turned, doc, current, -, serves, -⟩
  · rw [none]
    simpa using h.stays stays
  · have before : r.Grouped commands := by
      constructor
      · rw [doc]
        exact h.groups
      · rw [current]
        exact h.place
    rw [← doc] at serves
    exact before.turned turned serves

/-- All tokens, one after another. -/
theorem Grouped.run (h : s.Grouped commands) {tokens : List Token}
    (run : tokens.foldlM (fun s t => s.next options inner t) s = some s') :
    s'.Grouped (commands ++ tokens.filterMap Token.parameters?) := by
  induction tokens generalizing s commands with
  | nil =>
    obtain rfl := Option.some.inj run
    simpa using h
  | cons t rest ih =>
    obtain ⟨middle, step, run⟩ := Option.bind_eq_some_iff.mp run
    have later := ih (h.next step) run
    rw [List.append_assoc] at later
    convert later using 2
    cases named : t.parameters? <;> simp [named]

theorem read_groups {tokens : List Token} (read : read options inner tokens = some s) :
    s.doc.Groups (tokens.filterMap Token.parameters?) := by
  obtain ⟨last, run, completed⟩ := Option.bind_eq_some_iff.mp read
  have nothing : start.Grouped [] := ⟨⟨[], rfl, rfl⟩, trivial⟩
  have all := nothing.run run
  obtain ⟨closed, turned, taken⟩ := complete_takes completed
  have same : s.doc.params = closed.doc.params := by
    obtain same | ⟨body, rest, first, later, -, -, -, same⟩ := taken <;> rw [same]
  obtain ⟨blocks, -, closed⟩ := Option.bind_eq_some_iff.mp turned
  obtain rfl := Option.some.inj closed
  obtain ⟨groups, known, params⟩ := all.groups.add all.place blocks.nodes
  exact ⟨groups, known, same.trans params⟩

end SectionReader

/-- The parameters of a comment are, in order, those that its commands name, and all that one
command names have one direction and one body. Names that are written with commas between them,
behind which a space may stand, and the text after them are read back as they are. -/
theorem named_parameters (options : Options) (lines : List Text) :
    (∀ d, Documentation.ofLines options lines = .ok d →
      ∃ (tokens : List Token) (groups : List ParameterGroup), tokenize lines = .ok tokens ∧
        groups.map ParameterGroup.command = tokens.filterMap Token.parameters? ∧
        d.doc.params = groups.flatMap ParameterGroup.entries ∧
        d.doc.params.map ParamEntry.name =
          (tokens.filterMap Token.parameters?).flatMap ParameterCommand.names) ∧
      ∀ (names : List Text) (description : Text), names ≠ [] →
        (∀ name ∈ names, Section.ParameterName name) →
        (∀ c ∈ description.head?, Text.isSpace c = false) →
        Section.parameterNames ([',', ' '].intercalate names ++ ' ' :: description) =
            (names, description) ∧
          Section.parameterNames ([','].intercalate names ++ ' ' :: description) =
            (names, description) := by
  refine ⟨fun d read => ?_, fun names description some plain h =>
    ⟨Section.parameterNames_spaced plain some h, Section.parameterNames_commas plain some h⟩⟩
  unfold Documentation.ofLines at read
  split at read
  next => cases read
  next tokens accepted =>
    split at read
    next s whole =>
      cases read
      obtain ⟨groups, same, params⟩ := SectionReader.read_groups whole
      refine ⟨tokens, groups, accepted, same, params, ?_⟩
      rw [params, ParameterGroup.names_flatMap, same]
    next => cases read

/-- Two commands, the second inside the paragraph block of the first, and a section after them. -/
def parameterBlock : List Text :=
  ["@param[in] a, b,c @parblock One".toList, [], "- two".toList, [], "@tparam T three".toList, [],
    "@code".toList, "@param x".toList, "@endcode".toList, "@return four".toList]

theorem parameterBlock_named :
    ∃ (d : Documentation) (groups : List ParameterGroup),
      Documentation.ofLines {} parameterBlock = .ok d ∧
      groups.map ParameterGroup.command =
        [⟨.input, ["a".toList, "b".toList, "c".toList]⟩, ⟨.unspecified, ["T".toList]⟩] ∧
      d.doc.params = groups.flatMap ParameterGroup.entries ∧
      Section.parameterNames "a, b of both".toList =
        (["a".toList, "b".toList], "of both".toList) := by
  have accepted : tokenize parameterBlock = .ok (Token.ofLines 0 none parameterBlock) := by
    decide +kernel
  have commands : (Token.ofLines 0 none parameterBlock).filterMap Token.parameters? =
      [⟨.input, ["a".toList, "b".toList, "c".toList]⟩, ⟨.unspecified, ["T".toList]⟩] := by
    decide +kernel
  have returns : (Documentation.ofLines {} parameterBlock).toOption.isSome = true := by
    decide +kernel
  have plain : ∀ name ∈ ["a".toList, "b".toList], Section.ParameterName name := by
    have letter {c : Char} (h : c.isAlpha) : Section.ParameterName [c] :=
      ⟨by simp, List.forall_mem_singleton.mpr (Text.isSpace_of_isAlpha h),
        fun comma => Text.ne_of_isAlpha h rfl (List.mem_singleton.mp comma).symm⟩
    exact List.forall_mem_cons.mpr ⟨letter rfl, List.forall_mem_singleton.mpr (letter rfl)⟩
  obtain ⟨named, split⟩ := named_parameters {} parameterBlock
  cases read : Documentation.ofLines {} parameterBlock with
  | error e => simp [read, Except.toOption] at returns
  | ok d =>
    obtain ⟨tokens, groups, same, known, params, -⟩ := named d read
    obtain rfl := Except.ok.inj (accepted.symm.trans same)
    exact ⟨d, groups, rfl, known.trans commands, params,
      (split _ "of both".toList (by simp) plain (by simp [Text.isSpace])).1⟩

end DocComment
