import DocComment.Documentation
import DocComment.Proofs.Line.Plain

/-!
# Written sections

Documentation of phrases in every section, the lines of a comment that it is written on, and the
sections that these stand for. A section command takes one paragraph on its own line; more than
one are kept together by a paragraph block.
-/

set_option autoImplicit false

namespace DocComment

structure PlainParam where
  name : Word
  direction : ParamDirection
  body : List Phrase

structure PlainRetval where
  value : Word
  body : List Phrase

inductive PlainHeading where
  | warning
  | note
  | todo
  | par (title : Phrase)

structure PlainAdmonition where
  heading : PlainHeading
  body : List Phrase

structure PlainDoc where
  brief : Phrase
  detail : List Phrase
  params : List PlainParam
  returns : Option (List Phrase)
  retvals : List PlainRetval
  seeAlso : List Phrase
  admonitions : List PlainAdmonition

/-! ## Sections -/

def Phrase.paragraph (p : Phrase) : Node := .paragraph [.text p.text]

def PlainParam.entry (p : PlainParam) : ParamEntry Node :=
  ⟨p.name.text, p.direction, p.body.map Phrase.paragraph⟩

def PlainRetval.entry (r : PlainRetval) : RetvalEntry Node :=
  ⟨r.value.text, r.body.map Phrase.paragraph⟩

namespace PlainHeading

def kind : PlainHeading → AdmonitionKind
  | warning => .warning
  | note => .note
  | todo => .todo
  | par _ => .par

def title? : PlainHeading → Option Text
  | par title => some title.text
  | _ => none

def command : PlainHeading → BlockCommand
  | warning => .warning
  | note => .note
  | todo => .todo
  | par _ => .par

def name : PlainHeading → Text
  | warning => "warning".toList
  | note => "note".toList
  | todo => "todo".toList
  | par _ => "par".toList

end PlainHeading

def PlainAdmonition.entry (a : PlainAdmonition) : Admonition Node :=
  ⟨a.heading.kind, a.heading.title?, a.body.map Phrase.paragraph⟩

def PlainDoc.doc (d : PlainDoc) : Doc where
  brief := some d.brief.paragraph
  detail := d.detail.map Phrase.paragraph
  params := d.params.map PlainParam.entry
  returns := d.returns.map fun body => body.map Phrase.paragraph
  retvals := d.retvals.map PlainRetval.entry
  seeAlso := d.seeAlso.map Phrase.paragraph
  admonitions := d.admonitions.map PlainAdmonition.entry

/-! ## Lines -/

namespace PlainLine

/-- A space before a text that is not empty. -/
def spaced : Text → Text
  | [] => []
  | c :: t => ' ' :: c :: t

def command (name args : Text) : Text := '@' :: (name ++ args)

/-- Paragraphs with a blank line between two of them. -/
def paragraphs : List Phrase → List Text
  | [] => []
  | [p] => [p.text]
  | p :: rest => p.text :: [] :: paragraphs rest

/-- The paragraphs of a section below its command, kept together if there are several. -/
def below : List Phrase → List Text
  | [] => []
  | [p] => [p.text]
  | body => command "parblock".toList [] :: paragraphs body ++ [command "endparblock".toList []]

/-- The only paragraph of a section, which stands on the line of its command. -/
def beside : List Phrase → Text
  | [p] => p.text
  | _ => []

/-- The paragraphs of a section that do not stand on the line of its command. -/
def more : List Phrase → List Text
  | [_] => []
  | body => below body

/-- The direction of a parameter in brackets. -/
def bracket : ParamDirection → Text
  | .input => "[in]".toList
  | .output => "[out]".toList
  | .inputOutput => "[in,out]".toList
  | .unspecified => []

end PlainLine

open PlainLine

def PlainParam.lines (p : PlainParam) : List Text :=
  command "param".toList (bracket p.direction ++ spaced (p.name.text ++ spaced (beside p.body))) ::
    more p.body

def PlainRetval.lines (r : PlainRetval) : List Text :=
  command "retval".toList (spaced (r.value.text ++ spaced (beside r.body))) :: more r.body

def PlainAdmonition.lines (a : PlainAdmonition) : List Text :=
  match a.heading with
  | .par title => command a.heading.name (spaced title.text) :: below a.body
  | _ => command a.heading.name (spaced (beside a.body)) :: more a.body

namespace PlainDoc

def detailLines (p : Phrase) : List Text := [p.text, []]

def returnsLines (body : List Phrase) : List Text :=
  command "return".toList (spaced (beside body)) :: more body

def seeLines (p : Phrase) : List Text := [command "see".toList (spaced p.text)]

def lines (d : PlainDoc) : List Text :=
  [command "brief".toList (spaced d.brief.text), []] ++ d.detail.flatMap detailLines ++
    d.params.flatMap PlainParam.lines ++ d.returns.toList.flatMap returnsLines ++
    d.retvals.flatMap PlainRetval.lines ++ d.seeAlso.flatMap seeLines ++
    d.admonitions.flatMap PlainAdmonition.lines

end PlainDoc

/-! ## Tokens -/

/-- Whether a word is a name of a section command. -/
def BlockCommand.isNamed (c : BlockCommand) (name : Text) : Bool :=
  name.all Char.isAlpha && !name.isEmpty && name.head? != some 'f' &&
    (Fence.ofName? name).isNone && BlockCommand.ofName? name == some c && c != .listItem

theorem PlainHeading.isNamed (heading : PlainHeading) :
    heading.command.isNamed heading.name := by
  cases heading with
  | par title =>
    have named : BlockCommand.par.isNamed "par".toList := by decide
    exact named
  | _ => decide

/-- What may follow the name of a command: nothing that goes on with the name. -/
def PlainLine.EndsName (args : Text) : Prop :=
  args.Unmarked ∧ ∀ d ∈ args.head?, Command.isNameChar d = false

theorem Command.name?_word {c : Char} {rest args : Text} (letters : ∀ d ∈ c :: rest, d.isAlpha)
    (plain : c ≠ 'f') (ends : ∀ d ∈ args.head?, isNameChar d = false) :
    name? (c :: rest ++ args) = some (c :: rest) := by
  have first := letters c List.mem_cons_self
  have nameChar : ∀ d ∈ rest, isNameChar d = true := fun d hd => by
    simp [isNameChar, Char.isAlphanum, letters d (List.mem_cons_of_mem c hd)]
  have taken : (rest ++ args).takeWhile isNameChar = rest := by
    rw [List.takeWhile_append_of_pos nameChar]
    cases args with
    | nil => simp
    | cons d args => simp [ends d rfl]
  rw [List.cons_append]
  unfold name?
  split
  · next h => exact absurd (List.cons.inj h).1 plain
  · next h => exact absurd (List.cons.inj h).1 plain
  · next h => exact absurd (List.cons.inj h).1 plain
  · next h => exact absurd (List.cons.inj h).1 (Text.ne_of_isAlpha first rfl)
  · next h => exact absurd (List.cons.inj h).1 (Text.ne_of_isAlpha first rfl)
  · next h =>
    obtain ⟨rfl, rfl⟩ := List.cons.inj h
    rw [if_pos first, taken]
  · next h => cases h

theorem Segments.ofLine_command {c : BlockCommand} {name args : Text} (named : c.isNamed name)
    (ends : EndsName args) :
    ofLine (command name args) = ⟨[], [⟨name, command name args⟩], none⟩ := by
  simp only [BlockCommand.isNamed, Bool.and_eq_true, Bool.not_eq_true', bne_iff_ne,
    Option.isNone_iff_eq_none, beq_iff_eq, List.all_eq_true] at named
  obtain ⟨⟨⟨⟨⟨letters, nonempty⟩, plain⟩, noFence⟩, known⟩, -⟩ := named
  obtain ⟨unmarked, ends⟩ := ends
  obtain ⟨d, rest, rfl⟩ := List.exists_cons_of_ne_nil (List.isEmpty_eq_false_iff.1 nonempty)
  have name : Command.name? (d :: rest ++ args) = some (d :: rest) :=
    Command.name?_word letters (by simpa using plain) ends
  have text : Text.Unmarked (d :: rest ++ args) :=
    .append (fun e he => ⟨Text.isMark_of_isAlpha (letters e he),
      Text.isControl_of_isAlpha (letters e he)⟩) unmarked
  have filtered : (some (d :: rest)).filter (BlockCommand.ofName? · |>.isSome) =
      some (d :: rest) := by simp [Option.filter, known]
  rw [ofLine, command, cut, name, cut_unmarked text]
  simp [Command.isMark, noFence, filtered, consCommand]

theorem Token.ofLine_command {c : BlockCommand} {name args : Text} (named : c.isNamed name)
    (ends : EndsName args) (line : Nat) :
    ofLine line none (command name args) =
      ([⟨line, .command name (Text.trim args), command name args⟩], none) := by
  have segments := Segments.ofLine_command named ends
  simp only [BlockCommand.isNamed, Bool.and_eq_true, bne_iff_ne, beq_iff_eq] at named
  obtain ⟨⟨-, known⟩, noItem⟩ := named
  have kind : Kind.ofCommand 0 ⟨name, command name args⟩ = .command name (Text.trim args) := by
    rw [Kind.ofCommand, if_neg (by simpa [known] using noItem)]
    simp [CommandText.rest, command, Nat.add_comm 1]
  have tokens : scan line none (command name args) =
      ([⟨line, .command name (Text.trim args), command name args⟩], none) := by
    rw [scan]
    split
    · simp [segments, ofText, ofCommands, Text.isBlank, kind]
    · next opened => simp [segments] at opened
  have mark : Text.isBlank (command name args) = false := rfl
  simp [ofLine, mark, tokens]

/-! ## Characters -/

namespace PlainLine

theorem spaced_unmarked {t : Text} (h : t.Unmarked) : (spaced t).Unmarked := by
  cases t with
  | nil => exact h
  | cons c t => exact .cons (by decide) h

theorem beside_unmarked (body : List Phrase) : (beside body).Unmarked := by
  unfold beside
  split
  · exact Phrase.unmarked _
  · simp [Text.Unmarked]

theorem endsName_spaced {t : Text} (h : t.Unmarked) : EndsName (spaced t) := by
  refine ⟨spaced_unmarked h, fun d hd => ?_⟩
  cases t with
  | nil => cases hd
  | cons c t =>
    cases hd
    decide

theorem endsName_bracket (direction : ParamDirection) {t : Text} (h : t.Unmarked) :
    EndsName (bracket direction ++ spaced t) := by
  have bracketed (front : Text) (opens : front.head? = some '[') (plain : front.Unmarked) :
      EndsName (front ++ spaced t) := by
    refine ⟨.append plain (spaced_unmarked h), fun d hd => ?_⟩
    rw [List.head?_append, opens] at hd
    cases hd
    decide
  cases direction with
  | unspecified => exact endsName_spaced h
  | _ => exact bracketed _ (by decide) (by decide)

theorem named_unmarked (w : Word) (body : List Phrase) :
    Text.Unmarked (w.text ++ spaced (beside body)) :=
  .append (fun c hc => ⟨Text.isMark_of_isAlpha (w.letters c hc),
    Text.isControl_of_isAlpha (w.letters c hc)⟩) (spaced_unmarked (beside_unmarked body))

/-- Whether a line holds no control character. -/
def Printable (t : Text) : Prop := ∀ c ∈ t, Text.isControl c = false

theorem printable_of_unmarked {t : Text} (h : t.Unmarked) : Printable t := fun c hc => (h c hc).2

theorem printable_command {c : BlockCommand} {name args : Text} (named : c.isNamed name)
    (ends : EndsName args) : Printable (command name args) := by
  simp only [BlockCommand.isNamed, Bool.and_eq_true, List.all_eq_true] at named
  obtain ⟨⟨⟨⟨⟨letters, -⟩, -⟩, -⟩, -⟩, -⟩ := named
  intro d hd
  obtain rfl | hd := List.mem_cons.1 hd
  · decide
  · obtain hd | hd := List.mem_append.1 hd
    · exact Text.isControl_of_isAlpha (letters d hd)
    · exact (ends.1 d hd).2

theorem printable_paragraphs (body : List Phrase) : ∀ t ∈ paragraphs body, Printable t := by
  fun_induction paragraphs body with
  | case1 => simp
  | case2 p => exact List.forall_mem_singleton.2 (printable_of_unmarked p.unmarked)
  | case3 p rest _ ih =>
    exact List.forall_mem_cons.2 ⟨printable_of_unmarked p.unmarked,
      List.forall_mem_cons.2 ⟨by simp [Printable], ih⟩⟩

theorem printable_below (body : List Phrase) : ∀ t ∈ below body, Printable t := by
  have nothing : EndsName [] := ⟨by simp [Text.Unmarked], by simp⟩
  unfold below
  split
  · simp
  · exact List.forall_mem_singleton.2 (printable_of_unmarked (Phrase.unmarked _))
  · refine List.forall_mem_append.2 ⟨List.forall_mem_cons.2 ⟨?_, printable_paragraphs body⟩,
      List.forall_mem_singleton.2 ?_⟩
    · exact printable_command (c := .parBlock) (by decide) nothing
    · exact printable_command (c := .endParBlock) (by decide) nothing

theorem printable_more (body : List Phrase) : ∀ t ∈ more body, Printable t := by
  unfold more
  split
  · simp
  · exact printable_below body

end PlainLine

theorem PlainParam.printable (p : PlainParam) : ∀ t ∈ p.lines, Printable t :=
  List.forall_mem_cons.2 ⟨printable_command (c := .param) (by decide)
    (endsName_bracket p.direction (named_unmarked p.name p.body)), printable_more p.body⟩

theorem PlainRetval.printable (r : PlainRetval) : ∀ t ∈ r.lines, Printable t :=
  List.forall_mem_cons.2 ⟨printable_command (c := .retval) (by decide)
    (endsName_spaced (named_unmarked r.value r.body)), printable_more r.body⟩

theorem PlainAdmonition.printable (a : PlainAdmonition) : ∀ t ∈ a.lines, Printable t := by
  have named := a.heading.isNamed
  unfold lines
  split
  · next title _ =>
    exact List.forall_mem_cons.2
      ⟨printable_command named (endsName_spaced title.unmarked), printable_below a.body⟩
  · exact List.forall_mem_cons.2
      ⟨printable_command named (endsName_spaced (beside_unmarked a.body)), printable_more a.body⟩

namespace PlainDoc

theorem printable_brief (p : Phrase) :
    ∀ t ∈ [command "brief".toList (spaced p.text), []], Printable t :=
  List.forall_mem_cons.2 ⟨printable_command (c := .brief) (by decide)
    (endsName_spaced p.unmarked), by simp [Printable]⟩

theorem printable_detail (p : Phrase) : ∀ t ∈ detailLines p, Printable t :=
  List.forall_mem_cons.2 ⟨printable_of_unmarked p.unmarked, by simp [Printable]⟩

theorem printable_returns (body : List Phrase) : ∀ t ∈ returnsLines body, Printable t :=
  List.forall_mem_cons.2 ⟨printable_command (c := .returns) (by decide)
    (endsName_spaced (beside_unmarked body)), printable_more body⟩

theorem printable_see (p : Phrase) : ∀ t ∈ seeLines p, Printable t :=
  List.forall_mem_singleton.2 (printable_command (c := .see) (by decide)
    (endsName_spaced p.unmarked))

theorem printable (d : PlainDoc) : ∀ t ∈ d.lines, Printable t := by
  simp only [lines, List.forall_mem_append, List.forall_mem_flatMap]
  exact ⟨⟨⟨⟨⟨⟨printable_brief d.brief, fun p _ => printable_detail p⟩,
    fun p _ => p.printable⟩, fun body _ => printable_returns body⟩, fun r _ => r.printable⟩,
    fun p _ => printable_see p⟩, fun a _ => a.printable⟩

end PlainDoc

end DocComment
