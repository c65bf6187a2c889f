import DocComment.Proofs.Section.Sentence
import DocComment.Proofs.Section.Turning

/-!
# Two rules for brief descriptions

The rule for brief descriptions is asked for once, when a comment has been read. So the two rules
give the same documentation of a comment, except for where its first paragraph is cut.
-/

set_option autoImplicit false

namespace DocComment

/-! ## What reading asks of the options -/

section

variable {a b : Options}

theorem BlockReader.read_congr (h : a.verbatimIndent = b.verbatimIndent) : read a = read b := by
  obtain ⟨_, indent, _, _⟩ := a
  obtain ⟨_, _, _, _⟩ := b
  obtain rfl : indent = _ := h
  rfl

/-- Blocks are read alike if verbatim text has the same indent. -/
theorem Blocks.parse_congr (h : a.verbatimIndent = b.verbatimIndent) : parse a = parse b := by
  have within (levels : Nat) : parseWithin a levels = parseWithin b levels := by
    induction levels with
    | zero => rfl
    | succ levels ih =>
      funext lines
      rw [parseWithin, parseWithin, ih, BlockReader.read_congr h]
  funext lines
  rw [parse, parse, within]

theorem SectionReader.next_congr (h : a.verbatimIndent = b.verbatimIndent) : next a = next b := by
  obtain ⟨_, indent, _, _⟩ := a
  obtain ⟨_, _, _, _⟩ := b
  obtain rfl : indent = _ := h
  rfl

end

/-- The same options with another rule for brief descriptions. -/
def Options.withBrief (options : Options) (rule : BriefRule) : Options :=
  { options with brief := rule }

namespace SectionReader

/-- All tokens read and the last section closed. -/
def readAll (options : Options) (inner : BlockParser) (tokens : List Token) :
    Option SectionReader := do
  let s ← tokens.foldlM (fun s t => s.next options inner t) start
  s.turnTo inner s.current

/-- Finds the brief description if none is marked. -/
def takeBrief (rule : BriefRule) (s : SectionReader) : SectionReader :=
  if s.doc.brief.isSome || s.explicitBrief then s
  else
    { s with doc := { s.doc with
        brief := (Section.takeBrief rule s.doc.detail).1
        detail := (Section.takeBrief rule s.doc.detail).2 } }

theorem complete_withBrief (options : Options) (rule : BriefRule) (inner : BlockParser)
    (s : SectionReader) :
    s.complete (options.withBrief rule) inner =
      (s.turnTo inner s.current).map (takeBrief rule) := by
  unfold complete
  cases s.turnTo inner s.current with
  | none => rfl
  | some closed =>
    change (if closed.doc.brief.isSome || closed.explicitBrief then some closed else _) =
      some (closed.takeBrief rule)
    unfold takeBrief
    split <;> rfl

theorem read_withBrief (options : Options) (rule : BriefRule) (inner : BlockParser)
    (tokens : List Token) :
    read (options.withBrief rule) inner tokens =
      (readAll options inner tokens).map (takeBrief rule) := by
  have next : SectionReader.next (options.withBrief rule) = SectionReader.next options :=
    next_congr rfl
  simp only [read, readAll, next, complete_withBrief, Option.bind_eq_bind, Option.map_bind]
  rfl

/-! ## Marked brief descriptions -/

/-- A reader that has met no brief description. -/
structure Unmarked (s : SectionReader) : Prop where
  explicit : s.explicitBrief = false
  brief : s.doc.brief = none
  current : s.current ≠ .brief

section

variable {options : Options} {inner : BlockParser} {s s' : SectionReader}

theorem brief_add {dest : Section} (other : dest ≠ .brief) (nodes : List Node) (doc : Doc) :
    (dest.add nodes doc).brief = doc.brief := by
  unfold Section.add
  split
  · rfl
  · cases dest with
    | brief => exact absurd rfl other
    | _ => rfl

theorem Unmarked.stays (h : s.Unmarked) (stays : Stays s s') : s'.Unmarked where
  explicit := stays.explicit.trans h.explicit
  brief := by rw [stays.doc, h.brief]
  current := by
    rw [stays.current]
    exact h.current

/-- New elements and return sections have no part in it. -/
theorem Unmarked.turned {new : NewElements} {dest : Section} (h : s.Unmarked)
    (turned : TurnsTo inner new dest s s') (other : dest ≠ .brief) : s'.Unmarked where
  explicit := turned.explicit.trans h.explicit
  brief := by
    obtain ⟨blocks, -, -, doc⟩ := turned.given
    have kept := brief_add h.current blocks.nodes (new.join s.doc)
    rcases doc with doc | doc
    · rw [doc, kept]
      exact h.brief
    · rw [doc]
      exact kept.trans h.brief
  current := by rwa [turned.current]

theorem Unmarked.next (h : s.Unmarked) {t : Token} (other : ¬t.MarksBrief)
    (step : s.next options inner t = some s') : s'.Unmarked := by
  rcases next_cases step with ⟨stays, -⟩ | ⟨new, dest, r, turned, doc, current, -, -, away⟩
  · exact h.stays stays
  · obtain ⟨elsewhere, explicit⟩ := away other
    have before : r.Unmarked := h.stays ⟨doc, current, explicit⟩
    exact before.turned turned elsewhere

theorem Unmarked.run (h : s.Unmarked) {tokens : List Token} (other : ∀ t ∈ tokens, ¬t.MarksBrief)
    (run : tokens.foldlM (fun s t => s.next options inner t) s = some s') : s'.Unmarked := by
  induction tokens generalizing s with
  | nil =>
    obtain rfl := Option.some.inj run
    exact h
  | cons t rest ih =>
    obtain ⟨here, later⟩ := List.forall_mem_cons.mp other
    obtain ⟨middle, step, run⟩ := Option.bind_eq_some_iff.mp run
    exact ih (h.next here step) later run

theorem readAll_unmarked {tokens : List Token} (other : ∀ t ∈ tokens, ¬t.MarksBrief)
    (read : readAll options inner tokens = some s) : s.Unmarked := by
  obtain ⟨last, run, turned⟩ := Option.bind_eq_some_iff.mp read
  have unmarked : last.Unmarked := Unmarked.run ⟨rfl, rfl, by simp [start]⟩ other run
  obtain ⟨blocks, -, turned⟩ := Option.bind_eq_some_iff.mp turned
  obtain rfl := Option.some.inj turned
  have kept := brief_add unmarked.current blocks.nodes last.doc
  exact ⟨unmarked.explicit, kept.trans unmarked.brief, unmarked.current⟩

end

end SectionReader

/-! ## The two rules -/

/-- Whether `cut` is `whole` but for its brief description, of which it has the first sentence; what
comes behind it stands in front of the detail. -/
def Doc.CutShort (whole cut : Doc) : Prop :=
  ∃ body first later, Section.SentenceCut body first later ∧
    whole.brief = some (.paragraph body) ∧
    cut = { whole with
      brief := some (.paragraph first)
      detail := (if later.isEmpty then [] else [.paragraph later]) ++ whole.detail }

theorem SectionReader.takeBrief_rules (s : SectionReader) :
    let whole := s.takeBrief .firstParagraph
    let cut := s.takeBrief .firstSentence
    whole.doc.CutShort cut.doc ∨
      cut.doc = whole.doc ∧
        (s.Unmarked → ∀ body, whole.doc.brief = some (.paragraph body) → Section.Unended body) := by
  intro whole cut
  by_cases marked : (s.doc.brief.isSome || s.explicitBrief) = true
  · have kept (rule : BriefRule) : s.takeBrief rule = s := if_pos marked
    have same : cut.doc = whole.doc := by
      simp only [cut, whole, kept]
    refine .inr ⟨same, fun unmarked => ?_⟩
    simp [unmarked.explicit, unmarked.brief] at marked
  · have taken (rule : BriefRule) : (s.takeBrief rule).doc = { s.doc with
        brief := (Section.takeBrief rule s.doc.detail).1
        detail := (Section.takeBrief rule s.doc.detail).2 } :=
      congrArg SectionReader.doc (if_neg marked)
    obtain ⟨body, first, later, rest, sentence, atParagraph, atSentence⟩ | ⟨same, unended⟩ :=
      Section.takeBrief_rules s.doc.detail
    · refine .inl ⟨body, first, later, sentence, ?_, ?_⟩
      · simp only [whole, taken, atParagraph]
      · simp only [whole, cut, taken, atParagraph, atSentence]
    · refine .inr ⟨by simp only [whole, cut, taken, same], fun _ body brief => unended body ?_⟩
      simpa only [whole, taken] using brief

theorem SectionReader.takeBrief_notes (rule : BriefRule) (s : SectionReader) :
    (s.takeBrief rule).directives = s.directives ∧
      (s.takeBrief rule).diagnostics = s.diagnostics := by
  unfold takeBrief
  split <;> exact ⟨rfl, rfl⟩

/-- By either rule a comment has the same directives and reports, and the same documentation but for
one cut: the one rule makes the first paragraph the brief description, the other cuts it behind its
first sentence. Nothing is cut if a command marks the brief description or no sentence ends. -/
theorem brief_rule_moves_cut (options : Options) (lines : List Text) :
    let read (rule : BriefRule) := Documentation.ofLines (options.withBrief rule) lines
    (∃ e, read .firstParagraph = .error e ∧ read .firstSentence = .error e) ∨
      ∃ tokens whole cut, tokenize lines = .ok tokens ∧
        read .firstParagraph = .ok whole ∧ read .firstSentence = .ok cut ∧
        cut.directives = whole.directives ∧ cut.diagnostics = whole.diagnostics ∧
        (whole.doc.CutShort cut.doc ∨
          cut.doc = whole.doc ∧ ((∃ t ∈ tokens, t.MarksBrief) ∨
            ∀ body, whole.doc.brief = some (.paragraph body) → Section.Unended body)) := by
  intro read
  have blocks (rule : BriefRule) : Blocks.parse (options.withBrief rule) = Blocks.parse options :=
    Blocks.parse_congr rfl
  simp only [read, Documentation.ofLines, blocks, SectionReader.read_withBrief]
  cases accepted : tokenize lines with
  | error e => exact .inl ⟨_, rfl, rfl⟩
  | ok tokens =>
    cases all : SectionReader.readAll options (Blocks.parse options) tokens with
    | none =>
      simp only [all, Option.map_none]
      exact .inl ⟨_, rfl, rfl⟩
    | some s =>
      simp only [all, Option.map_some]
      have sentence := s.takeBrief_notes .firstSentence
      have paragraph := s.takeBrief_notes .firstParagraph
      refine .inr ⟨tokens, _, _, rfl, rfl, rfl, sentence.1.trans paragraph.1.symm,
        sentence.2.trans paragraph.2.symm, ?_⟩
      rcases s.takeBrief_rules with short | ⟨same, unended⟩
      · exact .inl short
      · refine .inr ⟨same, ?_⟩
        by_cases marked : ∃ t ∈ tokens, t.MarksBrief
        · exact .inl marked
        · exact .inr (unended (SectionReader.readAll_unmarked (by simpa using marked) all))

end DocComment
