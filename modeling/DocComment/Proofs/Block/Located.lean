import DocComment.Proofs.Block.Bodies
import DocComment.Proofs.Block.Collected
import DocComment.Proofs.Line.Uncut

/-!
# Where misfit rows are reported

A row that does not fit its table is reported with the number of its line. Around a quote the lines
in front of it are added on the way out. Around a definition only those in front of its list are, so
the number falls short by the lines of the list in front of the definition.
-/

set_option autoImplicit false

namespace DocComment

variable {options : Options} {lines : List Text}

/-! ## Copied lines -/

/-- Whether some lines are pieces of others, one after another from line `start` on. -/
def Text.Pieces (lines : List Text) (start : Nat) (copied : List Text) : Prop :=
  ∀ i u, copied[i]? = some u → ∃ t, lines[start + i]? = some t ∧ u <:+: t

theorem Text.Pieces.single {n : Nat} {t u : Text} (line : lines[n]? = some t) (piece : u <:+: t) :
    Text.Pieces lines n [u] := by
  intro i v found
  cases i with
  | zero =>
    obtain rfl : u = v := by simpa using found
    exact ⟨t, line, piece⟩
  | succ i => simp at found

theorem Text.Pieces.concat {start : Nat} {copied : List Text}
    (copies : Text.Pieces lines start copied) {t u : Text}
    (line : lines[start + copied.length]? = some t) (piece : u <:+: t) :
    Text.Pieces lines start (copied ++ [u]) := by
  intro i v found
  by_cases old : i < copied.length
  · exact copies i v (by rwa [List.getElem?_append_left old] at found)
  · rw [List.getElem?_append_right (Nat.le_of_not_lt old), List.getElem?_singleton] at found
    by_cases last : i - copied.length = 0
    · obtain rfl : u = v := by simpa [last] using found
      have here : i = copied.length := by omega
      exact ⟨t, by rw [here, line], piece⟩
    · simp [last] at found

theorem Text.Pieces.trans {copied inner : List Text} {start place : Nat}
    (copies : Text.Pieces lines start copied) (inside : Text.Pieces copied place inner) :
    Text.Pieces lines (start + place) inner := by
  intro i u found
  obtain ⟨l, line, piece⟩ := inside i u found
  obtain ⟨t, whole, around⟩ := copies _ l line
  exact ⟨t, by rw [Nat.add_assoc, whole], piece.trans around⟩

/-- Whether what an item says is about lines that stand where it says. -/
def Item.StandsIn (lines : List Text) : Item → Prop
  | .node _ => True
  | .report line problem => ∀ expected found, problem = .tableWidth expected found →
      ∃ t, lines[line]? = some t ∧ (Token.Kind.ofText t).Misfits expected found
  | .quote start copied | .definitions start copied => Text.Pieces lines start copied

namespace Token

theorem line_plain (n : Nat) (t : Text) : (plain n t).line = n := by
  unfold plain
  split <;> rfl

theorem raw_plain (n : Nat) (t : Text) : (plain n t).raw = t := by
  unfold plain
  split <;> rfl

theorem isFenced_plain (n : Nat) (t : Text) : (plain n t).kind.isFenced = false := by
  unfold plain Kind.ofText
  split
  · rfl
  · split <;> rfl

theorem spelling_plain (n : Nat) (t : Text) : (plain n t).spelling <:+: t := by
  unfold spelling
  split
  · exact List.nil_prefix.isInfix
  · rw [raw_plain]

theorem misfits_plain {n expected found : Nat} {t : Text}
    (h : (plain n t).kind.Misfits expected found) : (Kind.ofText t).Misfits expected found := by
  unfold plain at h
  split at h
  · cases h.1
  · exact h

theorem quote_plain {n indent : Nat} {t text : Text} (h : (plain n t).kind = .quote indent text) :
    text <:+: t := by
  have read : ∃ quoted, QuoteLine.read? t = some quoted ∧ quoted.text = text := by
    unfold plain Kind.ofText at h
    split at h
    · cases h
    · split at h
      next quoted read => exact ⟨quoted, read, (Kind.quote.inj h).2⟩
      all_goals cases h
  obtain ⟨quoted, read, rfl⟩ := read
  have back := List.dropWhile_suffix (l := t) (· == ' ')
  unfold QuoteLine.read? at read
  split at read
  next inner marked =>
    cases read
    rw [marked] at back
    exact ((List.suffix_cons _ _).trans ((List.suffix_cons _ _).trans back)).isInfix
  next inner _ marked =>
    cases read
    rw [marked] at back
    exact ((List.suffix_cons _ _).trans back).isInfix
  next => cases read

end Token

namespace BlockReader

/-- Whether everything read from the first `n` lines is about lines that stand where it says. -/
structure Traced (lines : List Text) (n : Nat) (r : BlockReader) : Prop where
  items : ∀ item ∈ r.items, item.StandsIn lines
  quote : ∀ start copied, r.current = some (.quote start copied) → start + copied.length = n
  list : ∀ start copied depth lastLine,
    r.current = some (.definitions start copied depth lastLine) →
      start + copied.length = n ∧ lastLine + 1 = n

variable {r : BlockReader} {n : Nat} {t : Text}

theorem Traced.text {token : Token} {after : BlockReader} (traced : r.Traced lines n)
    (added : AddsText token r after)
    (report : ∀ expected found, token.kind.Misfits expected found →
      ∃ t, lines[token.line]? = some t ∧ (Token.Kind.ofText t).Misfits expected found) :
    after.Traced lines (n + 1) := by
  constructor
  · intro item mem
    obtain old | new := added.items item mem
    · exact traced.items item old
    · cases item with
      | node => trivial
      | report line problem =>
        obtain ⟨rfl, misfit⟩ := new
        exact fun expected found same => report expected found (misfit expected found same)
      | quote | definitions => exact new.elim
  · intro start copied current
    cases added.block _ current
  · intro start copied depth lastLine current
    cases added.block _ current

theorem traced_extendDefinitions (closed : ∀ item ∈ r.closed, item.StandsIn lines) {start : Nat}
    {copied : List Text} (copies : Text.Pieces lines start copied)
    (last : start + copied.length = n + 1) (depth : Int) :
    (r.extendDefinitions start copied depth n).Traced lines (n + 1) := by
  have items : ∀ item ∈ (r.extend (.definitions start copied depth n)).items,
      item.StandsIn lines := by
    rw [items_eq]
    refine List.forall_mem_append.mpr ⟨closed, List.forall_mem_append.mpr ⟨?_, ?_⟩⟩
    · split <;> simp [Item.StandsIn]
    · exact List.forall_mem_singleton.mpr copies
  unfold extendDefinitions
  dsimp only
  split
  · constructor
    · rwa [items_close]
    · simp [extend, close]
    · simp [extend, close]
  · constructor
    · exact items
    · simp [extend]
    · rintro start' copied' depth' lastLine current
      cases current
      exact ⟨last, rfl⟩

/-- One line. -/
theorem Traced.feed (options : Options) (traced : r.Traced lines n) (line : lines[n]? = some t) :
    (feed options r (Token.plain n t)).Traced lines (n + 1) := by
  have closed : ∀ item ∈ r.closed, item.StandsIn lines := by
    intro item mem
    apply traced.items
    rw [items_eq]
    exact List.mem_append_left _ mem
  have reads := reads_feed options r (Token.plain n t)
  generalize BlockReader.feed options r (Token.plain n t) = after at reads ⊢
  cases reads with
  | ignored fenced => simp [Token.isFenced_plain] at fenced
  | text added =>
    apply traced.text added
    intro expected found misfit
    exact ⟨t, by rw [Token.line_plain, line], Token.misfits_plain misfit⟩
  | quote kind =>
    rw [Token.line_plain]
    constructor
    · rw [items_eq]
      refine List.forall_mem_append.mpr ⟨traced.items, List.forall_mem_singleton.mpr ?_⟩
      exact Text.Pieces.single line (Token.quote_plain kind)
    · rintro start copied current
      cases current
      rfl
    · rintro start copied depth lastLine current
      cases current
  | @quoteOn indent start text quoted kind current =>
    have next := traced.quote start quoted current
    have copies : Text.Pieces lines start quoted :=
      traced.items (.quote start quoted) (by simp [items_eq, current, OpenBlock.items])
    constructor
    · rw [items_eq]
      refine List.forall_mem_append.mpr ⟨closed, List.forall_mem_singleton.mpr ?_⟩
      exact copies.concat (by rw [next, line]) (Token.quote_plain kind)
    · rintro start' copied same
      cases same
      rw [List.length_append, List.length_singleton]
      omega
    · rintro start' copied depth lastLine same
      cases same
  | list =>
    rw [Token.line_plain, Token.raw_plain]
    apply traced_extendDefinitions traced.items
    · exact Text.Pieces.single line List.infix_rfl
    · rfl
  | @listOn start lastLine list depth current =>
    obtain ⟨next, last⟩ := traced.list start list depth lastLine current
    have copies : Text.Pieces lines start list :=
      traced.items (.definitions start list) (by simp [items_eq, current, OpenBlock.items])
    rw [Token.line_plain, joinLine_new (by omega)]
    apply traced_extendDefinitions closed
    · exact copies.concat (by rw [next, line]) (Token.spelling_plain n t)
    · rw [List.length_append, List.length_singleton]
      omega

/-- All lines that are left. -/
theorem Traced.feedAll (options : Options) {rest : List Text} (traced : r.Traced lines n)
    (unread : lines.drop n = rest) :
    ((rest.mapIdx fun i t => Token.plain (i + n) t).foldl (BlockReader.feed options) r).Traced lines
      (n + rest.length) := by
  induction rest generalizing r n with
  | nil => exact traced
  | cons t rest ih =>
    have line : lines[n]? = some t := by
      rw [← List.head?_drop, unread, List.head?_cons]
    have later : lines.drop (n + 1) = rest := by
      rw [← List.tail_drop, unread, List.tail_cons]
    have number (i : Nat) : i + 1 + n = i + (n + 1) := by omega
    have all := ih (traced.feed options line) later
    simp only [List.mapIdx_cons, List.foldl_cons, Nat.zero_add, number]
    rwa [List.length_cons, Nat.add_comm rest.length, ← Nat.add_assoc]

end BlockReader

/-! ## Documents inside -/

/-- Where something is reported. -/
structure Site where
  /-- The line, counted in the outermost lines. -/
  index : Nat
  /-- The lines of the definition lists around it in front of the definitions that it is in. -/
  lead : Nat
  /-- The line as it is read, in the innermost of the documents that it is in. -/
  text : Text
  problem : Problem

namespace Site

/-- The site as it is seen from the lines around a document. -/
def outward (lines lead : Nat) (site : Site) : Site :=
  { site with index := lines + site.index, lead := lead + site.lead }

def diagnostic (site : Site) : Diagnostic :=
  ⟨site.problem, none, some (site.index - site.lead)⟩

theorem shift_diagnostic {site : Site} (le : site.lead ≤ site.index) (start place : Nat) :
    site.diagnostic.shift start = (site.outward (start + place) place).diagnostic := by
  simp only [diagnostic, Diagnostic.shift, outward, Option.map_some, Diagnostic.mk.injEq,
    Option.some.injEq, true_and]
  omega

/-- Whether what is reported about a row is about one that does not fit its table, on a line that
holds it. -/
def OnRow (lines : List Text) (site : Site) : Prop :=
  ∀ expected found, site.problem = .tableWidth expected found →
    (Token.Kind.ofText site.text).Misfits expected found ∧
      ∃ t, lines[site.index]? = some t ∧ site.text <:+: t

theorem OnRow.outward {site : Site} {inner : List Text} (row : site.OnRow inner) {start : Nat}
    (pieces : Text.Pieces lines start inner) (lead : Nat) :
    (site.outward start lead).OnRow lines := by
  intro expected found same
  obtain ⟨misfit, u, line, piece⟩ := row expected found same
  obtain ⟨t, whole, around⟩ := pieces _ u line
  exact ⟨misfit, t, whole, piece.trans around⟩

end Site

/-- What is reported for an item of some lines, where `inner` is what is reported in the documents
inside it. -/
def Item.sites (lines : List Text) (inner : List Text → List Site) : Item → List Site
  | .node _ => []
  | .report line problem => [⟨line, 0, lines[line]?.getD [], problem⟩]
  | .quote start quoted => (inner quoted).map (Site.outward start 0)
  | .definitions start list =>
    (Definition.places (Text.unlines list)).flatMap fun (place, body) =>
      (inner (Definition.bodyLines body)).map (Site.outward (start + place) place)

namespace Blocks

/-- What some lines leave behind before the documents inside are read. -/
def items (options : Options) (lines : List Text) : List Item :=
  match tokenize lines with
  | .error _ => []
  | .ok tokens => BlockReader.read options tokens

/-- What is reported in some lines, in blocks that nest at most `levels` deep. -/
def sitesWithin (options : Options) : Nat → List Text → List Site
  | 0, _ => []
  | levels + 1, lines =>
    (items options lines).flatMap (Item.sites lines (sitesWithin options levels))

def sites (options : Options) (lines : List Text) : List Site :=
  sitesWithin options (levels lines) lines

theorem inside_eq (options : Options) (lines : List Text) :
    inside options lines = (items options lines).flatMap Item.inside := by
  unfold inside items
  cases tokenize lines <;> rfl

theorem lead_le_index {levels : Nat} {site : Site}
    (known : site ∈ sitesWithin options levels lines) : site.lead ≤ site.index := by
  induction levels generalizing lines site with
  | zero => cases known
  | succ levels ih =>
    obtain ⟨item, -, known⟩ := List.mem_flatMap.mp known
    cases item with
    | node => cases known
    | report line problem =>
      rw [List.mem_singleton.mp known]
      exact Nat.zero_le _
    | quote start quoted =>
      obtain ⟨inner, inside, rfl⟩ := List.mem_map.mp known
      have := ih inside
      simp only [Site.outward]
      omega
    | definitions start list =>
      obtain ⟨⟨place, body⟩, -, known⟩ := List.mem_flatMap.mp known
      obtain ⟨inner, inside, rfl⟩ := List.mem_map.mp known
      have := ih inside
      simp only [Site.outward]
      omega

/-! ## Diagnostics -/

theorem diagnostics_concat (parts : List Blocks) :
    (concat parts).diagnostics = parts.flatMap Blocks.diagnostics := by
  induction parts with
  | nil => rfl
  | cons first rest ih => rw [concat, append, ih, List.flatMap_cons]

section

variable {inner : BlockParser} {known : List Text → List Site}

/-- Whether what is reported in documents is known. -/
structure Agree (inner : BlockParser) (known : List Text → List Site) : Prop where
  diagnostics : ∀ lines blocks, inner lines = some blocks →
    blocks.diagnostics = (known lines).map Site.diagnostic
  le : ∀ lines, ∀ site ∈ known lines, site.lead ≤ site.index

theorem Agree.entry (agree : Agree inner known) {entry : Definition.Entry}
    {done : TermEntry Node × List Diagnostic}
    (read : Definition.completeEntry inner entry = some done) :
    done.2 = entry.bodies.flatMap fun body =>
      (known (Definition.bodyLines body)).map Site.diagnostic := by
  obtain ⟨bodies, all, same⟩ := Option.bind_eq_some_iff.mp read
  cases same
  exact flatMap_of_mapM (fun body blocks found => agree.diagnostics _ blocks found) all

theorem Agree.list (agree : Agree inner known) {list : List Text} {node : Node}
    {diagnostics : List Diagnostic}
    (read : Definition.parse inner list = some (node, diagnostics)) :
    diagnostics = (Definition.places (Text.unlines list)).flatMap fun place =>
      (known (Definition.bodyLines place.2)).map Site.diagnostic := by
  obtain ⟨entries, all, same⟩ := Option.bind_eq_some_iff.mp read
  cases same
  rw [flatMap_of_mapM (fun entry done found => agree.entry found) all, ← List.flatMap_assoc,
    Definition.flatMap_bodies, ← Definition.snd_places, List.flatMap_map]

theorem Agree.item (agree : Agree inner known) {item : Item} {part : Blocks}
    (read : item.complete inner = some part) :
    part.diagnostics = (item.sites lines known).map Site.diagnostic := by
  cases item with
  | node n =>
    cases read
    rfl
  | report line problem =>
    cases read
    rfl
  | quote start quoted =>
    obtain ⟨body, found, rfl⟩ := Option.map_eq_some_iff.mp read
    rw [Item.sites, agree.diagnostics quoted body found, List.map_map, List.map_map]
    apply List.map_congr_left
    intro site mem
    exact Site.shift_diagnostic (agree.le quoted site mem) start 0
  | definitions start list =>
    obtain ⟨⟨node, diagnostics⟩, found, rfl⟩ := Option.map_eq_some_iff.mp read
    show diagnostics.map (Diagnostic.shift start) = _
    rw [Item.sites, agree.list found, List.map_flatMap, List.map_flatMap]
    apply List.flatMap_congr
    intro place _
    rw [List.map_map, List.map_map]
    apply List.map_congr_left
    intro site mem
    exact Site.shift_diagnostic (agree.le _ site mem) start place.1

end

theorem agree_parseWithin (options : Options) (levels : Nat) :
    Agree (parseWithin options levels) (sitesWithin options levels) := by
  induction levels with
  | zero =>
    constructor
    · intro lines blocks read
      cases read
    · exact fun lines site => lead_le_index
  | succ levels ih =>
    constructor
    · intro lines blocks read
      rw [parseWithin] at read
      rw [sitesWithin, items]
      cases tokens : tokenize lines with
      | error e =>
        rw [tokens] at read
        cases read
        rfl
      | ok tokens' =>
        rw [tokens] at read
        obtain ⟨parts, all, rfl⟩ := Option.map_eq_some_iff.mp read
        rw [diagnostics_concat, List.map_flatMap]
        exact flatMap_of_mapM (fun item part found => ih.item found) all
    · exact fun lines site => lead_le_index

/-! ## Lines -/

/-- Whether no line, of these or of a document inside, holds a block command or opens a fence. -/
def Plain (options : Options) (lines : List Text) : Prop :=
  ∀ inner, Relation.ReflTransGen (Contains options) lines inner → ∀ t ∈ inner, t.Uncut

theorem Plain.uncut (plain : Plain options lines) : ∀ t ∈ lines, t.Uncut := plain lines .refl

theorem Plain.inside (plain : Plain options lines) {inner : List Text}
    (contains : Contains options lines inner) : Plain options inner :=
  fun deeper path => plain deeper (.head contains path)

/-- Where something is read, no line holds a line feed. -/
theorem not_mem_of_items {item : Item} (read : item ∈ items options lines) :
    ∀ t ∈ lines, '\n' ∉ t := by
  unfold items at read
  obtain ⟨e, error⟩ | ⟨-, clean⟩ := tokenize_cases lines
  · simp [error] at read
  · intro t mem feed
    exact absurd (clean t mem '\n' feed (by decide)) (by decide)

theorem items_standIn (uncut : ∀ t ∈ lines, t.Uncut) :
    ∀ item ∈ items options lines, item.StandsIn lines := by
  unfold items
  obtain ⟨e, error⟩ | ⟨ok, clean⟩ := tokenize_cases lines
  · simp [error]
  · have start : BlockReader.empty.Traced lines 0 :=
      ⟨by simp [BlockReader.items_eq, BlockReader.empty], by simp [BlockReader.empty],
        by simp [BlockReader.empty]⟩
    rw [tokenize_uncut uncut clean]
    exact (start.feedAll options List.drop_zero).items

/-- The lines of a definition are pieces of the lines of its list. -/
theorem body_pieces (uncut : ∀ t ∈ lines, t.Uncut) {start place : Nat} {list : List Text}
    {body : Text} (listed : .definitions start list ∈ items options lines)
    (known : (place, body) ∈ Definition.places (Text.unlines list)) :
    Text.Pieces list place (Definition.bodyLines body) := by
  have single : ∀ l ∈ list, '\n' ∉ l := by
    intro l mem feed
    obtain ⟨i, known⟩ := List.mem_iff_getElem?.mp mem
    obtain ⟨t, line, piece⟩ := items_standIn uncut _ listed i l known
    exact not_mem_of_items listed t (List.mem_of_getElem? line) (piece.subset feed)
  exact fun i u => Definition.bodyLines_place single known

theorem sites_onRow {levels : Nat} (plain : Plain options lines) :
    ∀ site ∈ sitesWithin options levels lines, site.OnRow lines := by
  induction levels generalizing lines with
  | zero =>
    intro site known
    cases known
  | succ levels ih =>
    intro site known
    obtain ⟨item, listed, known⟩ := List.mem_flatMap.mp known
    have stands := items_standIn plain.uncut item listed
    have contains {inner : List Text} (inside : inner ∈ item.inside) :
        Contains options lines inner := by
      rw [Contains, inside_eq]
      exact List.mem_flatMap.mpr ⟨item, listed, inside⟩
    cases item with
    | node n => cases known
    | report line problem =>
      obtain rfl := List.mem_singleton.mp known
      intro expected found same
      obtain ⟨t, there, misfit⟩ := stands expected found same
      simp only [there, Option.getD_some]
      exact ⟨misfit, t, rfl, List.infix_rfl⟩
    | quote start quoted =>
      obtain ⟨site, inside, rfl⟩ := List.mem_map.mp known
      have inner := plain.inside (contains (List.mem_singleton.mpr rfl))
      exact (ih inner site inside).outward stands 0
    | definitions start list =>
      obtain ⟨⟨place, body⟩, listedBody, known⟩ := List.mem_flatMap.mp known
      obtain ⟨site, inside, rfl⟩ := List.mem_map.mp known
      have contained : Definition.bodyLines body ∈ Item.inside (.definitions start list) := by
        rw [Item.inside_definitions, ← Definition.snd_places]
        exact List.mem_map_of_mem (List.mem_map_of_mem listedBody)
      have copies := body_pieces plain.uncut listed listedBody
      exact (ih (plain.inside (contains contained)) site inside).outward (stands.trans copies) place

/-! ## Whole documents -/

theorem takesTwice_plain (uncut : ∀ t ∈ lines, t.Uncut) : takesTwice options lines = false := by
  have once (tokens : List Token) (unfenced : ∀ token ∈ tokens, token.kind.isFenced = false)
      (r : BlockReader) : r.takesTwice options tokens = false := by
    induction tokens generalizing r with
    | nil => rfl
    | cons token rest ih =>
      obtain ⟨here, later⟩ := List.forall_mem_cons.mp unfenced
      rw [BlockReader.takesTwice, Token.repeats_eq_false here, ih later, Bool.and_false,
        Bool.or_false]
  unfold takesTwice
  obtain ⟨e, error⟩ | ⟨ok, clean⟩ := tokenize_cases lines
  · rw [error]
  · rw [tokenize_uncut uncut clean]
    apply once
    intro token mem
    obtain ⟨i, inside, rfl⟩ := List.mem_mapIdx.mp mem
    exact Token.isFenced_plain i _

/-- What is reported in some lines, in order. A report about a row or a separator is about one that
does not fit its table. Its number is that of the line that holds it, less the lines of the
definition lists around it that stand in front of the definitions that it is in. -/
theorem tableWidth_located (plain : Plain options lines) :
    ∃ blocks, parse options lines = some blocks ∧
      blocks.diagnostics = (sites options lines).map Site.diagnostic ∧
      ∀ site ∈ sites options lines, site.lead ≤ site.index ∧
        ∀ expected found, site.problem = .tableWidth expected found →
          (Token.Kind.ofText site.text).Misfits expected found ∧
            ∃ t, lines[site.index]? = some t ∧ site.text <:+: t := by
  have ends : (parse options lines).isSome :=
    isSome_parseWithin (fun inner path => takesTwice_plain (plain inner path)) Nat.lt_two_pow_self
  obtain ⟨blocks, read⟩ := Option.isSome_iff_exists.mp ends
  refine ⟨blocks, read, (agree_parseWithin options _).diagnostics lines blocks read, ?_⟩
  exact fun site known => ⟨lead_le_index known, sites_onRow plain site known⟩

/-- A definition behind the first line of its list. -/
def lateDefinition : List Text :=
  ["<dl>", "<dd>", "| a | b |", "| a | b | c |", "</dd>", "</dl>"].map String.toList

theorem lateDefinition_plain : Plain {} lateDefinition := by
  let parts : List (List Text) :=
    [lateDefinition, ["", "| a | b |", "| a | b | c |"].map String.toList]
  have closed : ∀ outer ∈ parts, ∀ inner ∈ inside {} outer, inner ∈ parts := by decide +kernel
  have uncut : ∀ inner ∈ parts, ∀ t ∈ inner, t.Uncut := by decide +kernel
  intro inner path
  apply uncut
  induction path with
  | refl => exact List.mem_cons_self
  | tail _ step ih => exact closed _ ih _ step

theorem diagnostics_lateDefinition : (parse {} lateDefinition).map Blocks.diagnostics =
    some [⟨.tableWidth 2 3, none, some 2⟩] := by
  decide +kernel

theorem lateDefinition_located : Plain {} lateDefinition ∧
    ∃ site ∈ sites {} lateDefinition, site.diagnostic.line = some 2 ∧
      (Token.Kind.ofText site.text).Misfits 2 3 ∧
        ∃ t, lateDefinition[site.index]? = some t ∧ site.text <:+: t := by
  obtain ⟨blocks, read, diagnostics, located⟩ := tableWidth_located lateDefinition_plain
  have reported := diagnostics_lateDefinition
  rw [read, Option.map_some, Option.some.injEq, diagnostics] at reported
  obtain ⟨site, alone, same⟩ := List.map_eq_singleton_iff.mp reported
  have known : site ∈ sites {} lateDefinition := by
    rw [alone]
    exact List.mem_singleton.mpr rfl
  have problem : site.problem = .tableWidth 2 3 := congrArg Diagnostic.problem same
  exact ⟨lateDefinition_plain, site, known, congrArg Diagnostic.line same,
    (located site known).2 2 3 problem⟩

/-- The line that a report names need not hold a row that does not fit. -/
theorem lateDefinition_misplaced :
    ¬ ∀ (lines : List Text) (blocks : Blocks), Plain {} lines → parse {} lines = some blocks →
      ∀ d ∈ blocks.diagnostics, ∀ expected found, d.problem = .tableWidth expected found →
        ∃ index t row, d.line = some index ∧ lines[index]? = some t ∧ row <:+: t ∧
          (Token.Kind.ofText row).Misfits expected found := by
  intro placed
  have reported := diagnostics_lateDefinition
  obtain ⟨blocks, read, diagnostics⟩ := Option.map_eq_some_iff.mp reported
  obtain ⟨index, t, row, here, line, piece, misfit⟩ := placed _ blocks lateDefinition_plain read _
    (by rw [diagnostics]; exact List.mem_singleton.mpr rfl) 2 3 rfl
  obtain rfl : 2 = index := Option.some.inj here
  obtain rfl : "| a | b |".toList = t := Option.some.inj line
  have fits : ∀ row ∈ "| a | b |".toList.tails.flatMap List.inits,
      ¬ (Token.Kind.ofText row).Misfits 2 3 := by decide +kernel
  obtain ⟨back, front, suffix⟩ := List.infix_iff_prefix_suffix.mp piece
  exact fits row (List.mem_flatMap.mpr
    ⟨back, (List.mem_tails _ _).mpr suffix, (List.mem_inits _ _).mpr front⟩) misfit

end Blocks

end DocComment
