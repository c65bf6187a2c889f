import DocComment.Proofs.Block.Nesting
import DocComment.Proofs.Block.Step
import DocComment.Proofs.Text.Position

/-!
# How deep blocks nest

A quote loses its marks and a definition list its tags, so what is inside is smaller than what is
around it, and reading ends. The exception is a fence that a definition list collects together
with the body on the same line: that body is collected twice, and the list may come to contain
the lines that it was read from.
-/

set_option autoImplicit false

namespace DocComment

/-! ## What a definition list contains -/

namespace Definition

/-- Whether a text and parts are cut out of a text of weight `n`, the parts behind a tag. -/
def Scan.Within (n : Nat) (s : Scan) : Prop :=
  Text.weight s.text ≤ n ∧ ∀ part ∈ s.parts, Text.weight part.text < n

theorem Scan.Within.consChar {t : Text} {s : Scan} (h : s.Within (Text.weight t)) (c : Char) :
    (s.consChar c).Within (Text.weight (c :: t)) := by
  refine ⟨?_, fun part hp => (h.2 part hp).trans_le (Text.weight_le_cons c t)⟩
  rw [Scan.consChar, ← List.singleton_append, Text.weight_append, ← List.singleton_append (l := t),
    Text.weight_append]
  exact Nat.add_le_add_left h.1 _

theorem Scan.Within.cut {t : Text} {s : Scan} {c : Char} (h : s.Within (Text.weight t))
    (kind : Option PartKind) (hc : kind.isSome → c ≠ '\n') :
    (s.cut kind).Within (Text.weight (c :: t)) := by
  have later : ∀ part ∈ s.parts, Text.weight part.text < Text.weight (c :: t) :=
    fun part hp => (h.2 part hp).trans_le (Text.weight_le_cons c t)
  have here (kept : Text) (sub : kept.Sublist s.text) (some : kind.isSome) :
      Text.weight kept < Text.weight (c :: t) :=
    ((Text.bytes_le_of_sublist (sub.filter _)).trans h.1).trans_lt (Text.weight_lt_cons (hc some))
  cases kind with
  | none => exact ⟨Nat.zero_le _, later⟩
  | some kind =>
    cases kind with
    | term =>
      exact ⟨Nat.zero_le _, List.forall_mem_cons.2 ⟨here _ (Text.trim_sublist _) rfl, later⟩⟩
    | body =>
      exact ⟨Nat.zero_le _, List.forall_mem_cons.2 ⟨here _ (List.Sublist.refl _) rfl, later⟩⟩

theorem scan_within (skip depth : Nat) (t : Text) : (scan skip depth t).Within (Text.weight t) := by
  fun_induction scan skip depth t with
  | case1 => exact ⟨Nat.zero_le _, by simp⟩
  | case2 skip depth c t ih =>
    exact ⟨ih.1.trans (Text.weight_le_cons c t),
      fun part hp => (ih.2 part hp).trans_le (Text.weight_le_cons c t)⟩
  | case3 depth c t _ ih => exact ih.consChar c
  | case4 c t _ _ ih => exact ih.cut none (by simp)
  | case5 depth c t _ _ _ ih => exact ih.consChar c
  | case6 depth c t _ _ kind n boundary ih =>
    refine ih.cut kind fun _ feed => ?_
    have none : boundary? ('\n' :: t) = .none := rfl
    simp [feed, none] at boundary
  | case7 depth c t _ _ _ ih => exact ih.consChar c

theorem size_bodyLines (t : Text) : Text.size (bodyLines t) ≤ Text.weight t := by
  refine (Text.size_map_le (fun l => ?_) _).trans (Text.size_lines t)
  refine Text.bytes_le_of_sublist ((Text.trimEnd_sublist _).trans ?_)
  cases h : Text.dropBytes? _ l with
  | none => exact List.nil_sublist l
  | some rest => exact (Text.dropBytes?_suffix h).sublist

end Definition

/-! ## What items contain -/

/-- Whether an item was collected from tokens of cost `n`. A quote has lost a mark. -/
def Item.Fits (n : Nat) : Item → Prop
  | .quote _ lines => Text.size lines < n
  | .definitions _ lines => Text.size lines ≤ n
  | .node _ | .report _ _ => True

theorem Item.Fits.mono {item : Item} {m n : Nat} (h : item.Fits m) (le : m ≤ n) : item.Fits n := by
  cases item with
  | quote => exact Nat.lt_of_lt_of_le h le
  | definitions => exact Nat.le_trans h le
  | _ => trivial

theorem Item.Fits.inside {item : Item} {n : Nat} (h : item.Fits n) :
    ∀ lines ∈ item.inside, Text.size lines < n := by
  cases item with
  | quote line lines => exact List.forall_mem_singleton.2 h
  | definitions line lines =>
    intro inner mem
    rw [Item.inside_definitions] at mem
    obtain ⟨body, known, rfl⟩ := List.mem_map.1 mem
    obtain ⟨part, hp, rfl⟩ := List.mem_map.1 known
    calc Text.size (Definition.bodyLines part.text)
      _ ≤ Text.weight part.text := Definition.size_bodyLines _
      _ < Text.weight (Text.unlines lines) :=
        (Definition.scan_within 0 0 _).2 part (List.mem_of_mem_filter hp)
      _ ≤ Text.size lines := Text.weight_unlines lines
      _ ≤ n := h
  | _ => simp [Item.inside]

theorem Item.IsText.fits {item : Item} {token : Token} (h : item.IsText token) (n : Nat) :
    item.Fits n := by
  cases item with
  | quote | definitions => exact h.elim
  | _ => trivial

namespace BlockReader

variable {options : Options} {r : BlockReader} {n : Nat}

/-- Whether everything read so far was collected from tokens of cost `n`. -/
def Fits (n : Nat) (r : BlockReader) : Prop := ∀ item ∈ r.items, item.Fits n

theorem Fits.mono {m : Nat} (h : r.Fits m) (le : m ≤ n) : r.Fits n :=
  fun item mem => (h item mem).mono le

theorem size_joinLine (lines : List Text) (lastLine line : Nat) (text : Text) :
    Text.size (joinLine lines lastLine line text) = Text.size lines + Text.bytes text := by
  unfold joinLine
  split
  · obtain rfl | ⟨front, last, rfl⟩ := List.eq_nil_or_concat lines
    · simp
    · simp [Nat.add_assoc]
  · simp

/-- Whether a definition list is open, which collects every token. -/
def collects (r : BlockReader) : Bool :=
  match r.current with
  | some (.definitions _ _ _ _) => true
  | _ => false

theorem Fits.feed (h : r.Fits n) {token : Token} (quotes : token.ShortensQuote)
    (once : (r.collects && token.repeats) = false) :
    (r.feed options token).Fits (n + token.cost) := by
  have grown := h.mono (Nat.le_add_right n token.cost)
  have raw (single : token.repeats = false) : token.cost = Text.bytes token.raw := by
    simp [Token.cost, single]
  have reads := reads_feed options r token
  generalize r.feed options token = after at reads ⊢
  cases reads with
  | ignored => exact grown
  | text added =>
    intro item mem
    obtain old | new := added.items item mem
    · exact grown item old
    · exact new.fits _
  | quote kind =>
    have shorter := quotes _ _ kind
    rw [← raw (by simp [Token.repeats, kind])] at shorter
    refine forall_items_begin grown (List.forall_mem_singleton.2 ?_)
    simp only [Item.Fits, Text.size_cons, Text.size_nil]
    omega
  | quoteOn kind current =>
    have shorter := quotes _ _ kind
    rw [← raw (by simp [Token.repeats, kind])] at shorter
    have before : Text.size _ < n := (forall_items_iff.1 h).2 _ current _ (List.mem_singleton.2 rfl)
    refine forall_items_extend grown (List.forall_mem_singleton.2 ?_)
    simp only [Item.Fits, Text.size_append, Text.size_cons, Text.size_nil]
    omega
  | list unfenced =>
    refine forall_items_extendDefinitions (forall_items_close grown) ?_ trivial
    rw [Item.Fits, raw (Token.repeats_eq_false unfenced), Text.size_cons, Text.size_nil]
    exact Nat.le_add_left _ _
  | @listOn start lastLine lines depth current =>
    have single : token.repeats = false := by simpa [collects, current] using once
    have before : Text.size lines ≤ n := by
      refine (forall_items_iff.1 h).2 _ current (.definitions start lines) ?_
      simp [OpenBlock.items]
    have text : Text.bytes token.spelling ≤ Text.bytes token.raw := by
      unfold Token.spelling
      split
      · exact Nat.zero_le _
      · exact Nat.le_refl _
    refine forall_items_extendDefinitions grown ?_ trivial
    rw [Item.Fits, size_joinLine, raw single]
    exact Nat.add_le_add before text

/-- Whether a definition list collects a body once with the opener of its fence and once as a
token of its own. -/
def takesTwice (options : Options) (r : BlockReader) : List Token → Bool
  | [] => false
  | token :: rest =>
    r.collects && token.repeats || takesTwice options (r.feed options token) rest

theorem Fits.foldl (tokens : List Token) (quotes : ∀ token ∈ tokens, token.ShortensQuote)
    {r : BlockReader} {n : Nat} (h : r.Fits n) (once : takesTwice options r tokens = false) :
    (tokens.foldl (BlockReader.feed options) r).Fits (n + Token.totalCost tokens) := by
  induction tokens generalizing r n with
  | nil => exact h
  | cons token rest ih =>
    obtain ⟨quote, quotes⟩ := List.forall_mem_cons.1 quotes
    obtain ⟨now, later⟩ := Bool.or_eq_false_iff.1 once
    rw [List.foldl_cons, Token.totalCost_cons, ← Nat.add_assoc]
    exact ih quotes (h.feed quote now) later

end BlockReader

/-! ## Documents -/

namespace Blocks

variable {options : Options} {lines : List Text}

/-- Whether a definition list in some lines collects a text twice. -/
def takesTwice (options : Options) (lines : List Text) : Bool :=
  match tokenize lines with
  | .error _ => false
  | .ok tokens => BlockReader.empty.takesTwice options tokens

theorem size_inside (once : takesTwice options lines = false) :
    ∀ inner ∈ inside options lines, Text.size inner < Text.size lines := by
  unfold takesTwice tokenize at once
  unfold inside tokenize
  cases found : ControlCharacter.find? 0 lines with
  | some error => simp
  | none =>
    intro inner mem
    rw [found] at once
    obtain ⟨item, hi, mem⟩ := List.mem_flatMap.1 mem
    have nothing : BlockReader.empty.Fits 0 := by simp [BlockReader.Fits, BlockReader.items,
      BlockReader.empty, BlockReader.close]
    have fits := BlockReader.Fits.foldl _ (Token.shortensQuote_ofLines 0 none lines) nothing once
    rw [Nat.zero_add] at fits
    exact ((fits item hi).inside inner mem).trans_le (Token.totalCost_ofLines 0 none lines)

/-- Whether `inner` is read for `outer`. -/
def Contains (options : Options) (outer inner : List Text) : Prop := inner ∈ inside options outer

theorem isSome_parseWithin {levels : Nat}
    (once : ∀ inner, Relation.ReflTransGen (Contains options) lines inner →
      takesTwice options inner = false) (enough : Text.size lines < levels) :
    (parseWithin options levels lines).isSome := by
  induction levels generalizing lines with
  | zero => exact absurd enough (Nat.not_lt_zero _)
  | succ levels ih =>
    rw [isSome_parseWithin_succ]
    intro inner mem
    refine ih (fun deeper path => once deeper (.head mem path)) ?_
    have smaller := size_inside (once lines .refl) inner mem
    omega

/-- Unless a text is collected twice, whatever is read inside some lines is smaller than they
are, so that blocks have an end. -/
theorem nesting_ends (options : Options) (lines : List Text)
    (once : ∀ inner, Relation.ReflTransGen (Contains options) lines inner →
      takesTwice options inner = false) :
    (parse options lines).isSome ∧
      ∀ outer, Relation.ReflTransGen (Contains options) lines outer →
        ∀ inner ∈ inside options outer, Text.size inner < Text.size outer :=
  ⟨isSome_parseWithin once Nat.lt_two_pow_self,
    fun outer path => size_inside (once outer path)⟩

/-- A fence inside a definition list, whose body starts on a line of its own, and two quotes. -/
def fencedDefinition : List Text :=
  ["<dl><dd>a".toList, "@code".toList, "> x".toList, "@endcode".toList, "</dl>".toList,
    "> > q".toList]

/-- Whatever is read for `fencedDefinition`. -/
def fencedDefinitionParts : List (List Text) :=
  [fencedDefinition, ["a".toList, "@code".toList, "> x".toList, "@endcode".toList],
    ["> q".toList], ["q".toList]]

theorem fencedDefinition_ends :
    (∀ inner, Relation.ReflTransGen (Contains {}) fencedDefinition inner →
      takesTwice {} inner = false) ∧ (parse {} fencedDefinition).isSome := by
  have parts {inner : List Text}
      (path : Relation.ReflTransGen (Contains {}) fencedDefinition inner) :
      inner ∈ fencedDefinitionParts := by
    have closed : ∀ outer ∈ fencedDefinitionParts, ∀ inner ∈ inside {} outer,
        inner ∈ fencedDefinitionParts := by decide +kernel
    induction path with
    | refl => exact List.mem_cons_self
    | tail _ step ih => exact closed _ ih _ step
  have once : ∀ inner ∈ fencedDefinitionParts, takesTwice {} inner = false := by decide +kernel
  have all := fun inner path => once inner (parts path)
  exact ⟨all, (nesting_ends {} fencedDefinition all).1⟩

/-- A definition list that contains itself: what follows `@code` is collected twice. -/
def selfContaining : List Text := ["<dl> @code<dd><dl> @code".toList]

theorem selfContaining_never_ends :
    (inside {} selfContaining = [selfContaining] ∧
      ∀ levels, parseWithin {} levels selfContaining = none) ∧
    (Text.size ["<dl> @code <dd><dl>nested list text".toList] = 35 ∧
      (inside {} ["<dl> @code <dd><dl>nested list text".toList]).map Text.size = [44]) := by
  have itself : inside {} selfContaining = [selfContaining] := by decide +kernel
  refine ⟨⟨itself, fun levels => ?_⟩, by decide +kernel, by decide +kernel⟩
  induction levels with
  | zero => rfl
  | succ levels ih =>
    have blocked := isSome_parseWithin_succ {} levels selfContaining
    rw [itself, List.forall_mem_singleton, ih] at blocked
    simpa using blocked

end Blocks

end DocComment
