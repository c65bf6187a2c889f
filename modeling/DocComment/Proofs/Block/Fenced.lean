import DocComment.Block.Blocks
import DocComment.Proofs.Line.Stream
import DocComment.Proofs.Text.Lines
import DocComment.Proofs.Text.Position

/-!
# Fences keep what they hold

The lines between the opener of a fence and its end tag reach the reader one by one and untouched,
whatever they would be elsewhere. Only code loses the indent that its lines have in common.
-/

set_option autoImplicit false

namespace DocComment

/-! ## Indents -/

namespace Text

/-- A line without its first `n` bytes. A blank line that cannot be cut there becomes empty. -/
inductive Outdented (n : Nat) : Text → Text → Prop
  | cut {front rest : Text} (size : bytes front = n) : Outdented n (front ++ rest) rest
  | blank {t : Text} (blank : isBlank t = true)
      (uncut : ∀ front rest, t = front ++ rest → bytes front ≠ n) : Outdented n t []

theorem outdented_dropBytes? {n : Nat} {t : Text} (deep : isBlank t = false → n ≤ indent t) :
    Outdented n t ((dropBytes? n t).getD []) := by
  cases cut : dropBytes? n t with
  | some rest =>
    obtain ⟨front, size, rfl⟩ := dropBytes?_eq_some.1 cut
    exact .cut size
  | none =>
    have uncut (front rest : Text) (split : t = front ++ rest) : bytes front ≠ n := by
      intro size
      rw [dropBytes?_eq_some.2 ⟨front, size, split⟩] at cut
      cases cut
    cases blank : isBlank t with
    | true => exact .blank blank uncut
    | false =>
      obtain ⟨rest, split⟩ := exists_spaces (deep blank)
      exact absurd (bytes_spaces n) (uncut _ rest split)

end Text

theorem Item.stripIndent_outdents (lines : List Text) :
    List.Forall₂ (Text.Outdented (Text.commonIndent lines)) lines (stripIndent lines) :=
  List.forall₂_map_right_iff.2 <| List.forall₂_same.2 fun _ mem =>
    Text.outdented_dropBytes? fun text => (Text.commonIndent_spec lines).le mem text

/-! ## Lines inside a fence -/

/-- The node that shows some lines as a fence without an argument holds them. -/
inductive Fence.Shows (lines : List Text) : Fence → Node → Prop
  | code {n : Nat} {outdented : List Text} (common : Text.CommonIndent lines n)
      (cut : List.Forall₂ (Text.Outdented n) lines outdented) :
      Shows lines .code (.codeBlock none outdented)
  | dot : Shows lines .dot (.diagram ⟨.dot (Text.unlines lines), none⟩)
  | msc : Shows lines .msc (.diagram ⟨.msc (Text.unlines lines), none⟩)
  | htmlOnly : Shows lines .htmlOnly (.passthrough .html (Text.unlines lines))
  | xmlOnly : Shows lines .xmlOnly (.passthrough .xml (Text.unlines lines))
  | verbatim : Shows lines .verbatim (.verbatim lines)
  | formula : Shows lines .formula (.formula (Text.trim (Text.unlines lines)) true)

theorem Item.ofFence_shows (fence : Fence) (lines : List Text) :
    fence.Shows lines (ofFence fence none lines) := by
  cases fence with
  | code => exact .code (Text.commonIndent_spec lines) (stripIndent_outdents lines)
  | dot => exact .dot
  | msc => exact .msc
  | htmlOnly => exact .htmlOnly
  | xmlOnly => exact .xmlOnly
  | verbatim => exact .verbatim
  | formula => exact .formula

namespace Token

theorem ofLine_opener (line : Nat) (fence : Fence) :
    ofLine line none ('@' :: fence.name) =
      ([⟨line, .fenceOpen fence none, '@' :: fence.name⟩], some fence) := by
  have opens : (Segments.ofLine ('@' :: fence.name)).opener = some (fence, '@' :: fence.name) := by
    cases fence <;> rfl
  have start : fenceStart line fence ('@' :: fence.name) =
      (⟨line, .fenceOpen fence none, '@' :: fence.name⟩, []) := by
    cases fence <;> rfl
  have first : beforeOpener line ('@' :: fence.name) = [] := by
    cases fence <;> rfl
  have text : Text.isBlank ('@' :: fence.name) = false := rfl
  rw [ofLine, text, scan_opened opens, start, first]
  rfl

theorem ofLine_closer (line : Nat) (fence : Fence) :
    ofLine line (some fence) ('@' :: fence.endName) =
      ([⟨line, .fenceClose fence false, '@' :: fence.endName⟩], none) := by
  have closes : fence.close? ('@' :: fence.endName) = some ⟨[], '@' :: fence.endName, []⟩ := by
    cases fence <;> rfl
  have rest : scan line none (Text.trimStart []) = ([], none) := scan_unopened rfl line
  rw [ofLine, Option.isNone_some, Bool.false_and, if_neg Bool.false_ne_true, scan_closed closes,
    rest]
  rfl

theorem ofLine_inside (line : Nat) {fence : Fence} {t : Text} (unclosed : fence.close? t = none) :
    ofLine line (some fence) t = ([⟨line, .fenceBody t, t⟩], some fence) := by
  rw [ofLine, Option.isNone_some, Bool.false_and, if_neg Bool.false_ne_true,
    scan_unclosed unclosed]

end Token

namespace BlockReader

/-- Lines without an end tag are added to the fence that is open, whatever follows them. -/
theorem feed_inside (options : Options) {fence : Fence} {arg : Option Text} (body : List Text)
    (unclosed : ∀ t ∈ body, fence.close? t = none) (lines rest : List Text) (line : Nat)
    (items : List Item) :
    (Token.ofLines line (some fence) (body ++ rest)).foldl (feed options)
        ⟨some (.fence fence arg lines), items⟩ =
      (Token.ofLines (line + body.length) (some fence) rest).foldl (feed options)
        ⟨some (.fence fence arg (lines ++ body)), items⟩ := by
  induction body generalizing lines line with
  | nil => simp
  | cons t body ih =>
    obtain ⟨here, later⟩ := List.forall_mem_cons.1 unclosed
    have collected : feed options ⟨some (.fence fence arg lines), items⟩ ⟨line, .fenceBody t, t⟩ =
        ⟨some (.fence fence arg (lines ++ [t])), items⟩ := rfl
    rw [List.cons_append, Token.ofLines, Token.ofLine_inside line here, List.foldl_append,
      List.foldl_cons, List.foldl_nil, collected, ih later, List.length_cons, List.append_assoc,
      List.singleton_append, Nat.add_assoc, Nat.add_comm 1]

/-- A fence on lines of its own is one item. -/
theorem read_fenced (options : Options) {fence : Fence} (body : List Text)
    (unclosed : ∀ t ∈ body, fence.close? t = none) :
    read options (Token.ofLines 0 none (('@' :: fence.name) :: (body ++ ['@' :: fence.endName]))) =
      [.node (Item.ofFence fence none body)] := by
  have opened : feed options empty ⟨0, .fenceOpen fence none, '@' :: fence.name⟩ =
      ⟨some (.fence fence none []), []⟩ := rfl
  rw [read, Token.ofLines, Token.ofLine_opener, List.foldl_append, List.foldl_cons, List.foldl_nil,
    opened, feed_inside options body unclosed, Token.ofLines, Token.ofLine_closer]
  rfl

end BlockReader

theorem Fence.printable_tags (fence : Fence) :
    ('@' :: (fence.name ++ fence.endName)).all (fun c => !Text.isControl c) = true := by
  cases fence <;> decide

theorem Blocks.levels_ne_zero (lines : List Text) : levels lines ≠ 0 := by
  unfold levels
  exact (Nat.two_pow_pos _).ne'

/-- A fence on lines of its own shows exactly what stands between its opener and its end tag, and
nothing is wrong with it. -/
theorem parse_fenced (options : Options) (fence : Fence) {body : List Text}
    (clean : ∀ t ∈ body, ∀ c ∈ t, Text.isControl c = true → c = '\t')
    (unclosed : ∀ t ∈ body, fence.closeSpan? t = none) :
    ∃ node, fence.Shows body node ∧
      Blocks.parse options (('@' :: fence.name) :: (body ++ ['@' :: fence.endName])) =
        some ⟨[node], []⟩ := by
  have printable : ControlCharacter.find? 0
      (('@' :: fence.name) :: (body ++ ['@' :: fence.endName])) = none := by
    rw [ControlCharacter.find?_eq_none_iff, List.forall_mem_cons, List.forall_mem_append,
      List.forall_mem_singleton]
    have tags (c : Char) (mem : c ∈ '@' :: (fence.name ++ fence.endName)) :
        Text.isControl c = true → c = '\t' := by
      have printable : Text.isControl c = false := by
        simpa using List.all_eq_true.1 fence.printable_tags c mem
      simp [printable]
    refine ⟨fun c mem => tags c ?_, clean, fun c mem => tags c ?_⟩ <;> grind
  have opens : ∀ t ∈ body, fence.close? t = none := fun t mem =>
    Option.map_eq_none_iff.1 (unclosed t mem)
  obtain ⟨levels, more⟩ := Nat.exists_eq_succ_of_ne_zero
    (Blocks.levels_ne_zero (('@' :: fence.name) :: (body ++ ['@' :: fence.endName])))
  refine ⟨Item.ofFence fence none body, Item.ofFence_shows fence body, ?_⟩
  rw [Blocks.parse, more, Blocks.parseWithin, tokenize, printable]
  dsimp only
  rw [BlockReader.read_fenced options body opens]
  rfl

/-- Lines that mean something anywhere else. -/
def foreignLines : List Text :=
  ["@param x @enddot".toList, [], "> - <dl> | a |".toList, "    @endverbatims @code".toList]

theorem foreignLines_kept :
    (∀ t ∈ foreignLines, ∀ c ∈ t, Text.isControl c = true → c = '\t') ∧
      (∀ t ∈ foreignLines, Fence.verbatim.closeSpan? t = none) ∧
      Blocks.parse {} ("@verbatim".toList :: (foreignLines ++ ["@endverbatim".toList])) =
        some ⟨[.verbatim foreignLines], []⟩ := by
  have clean : ∀ t ∈ foreignLines, ∀ c ∈ t, Text.isControl c = true → c = '\t' := by
    simp [foreignLines, Text.isControl]
  have unclosed : ∀ t ∈ foreignLines, Fence.verbatim.closeSpan? t = none := by decide
  obtain ⟨node, shows, parsed⟩ := parse_fenced {} .verbatim clean unclosed
  cases shows
  exact ⟨clean, unclosed, parsed⟩

end DocComment
