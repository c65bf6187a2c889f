/-!
# Text

A text is a list of characters. Its size is counted in UTF-8 bytes, and so is every
position in it: a position is a cut only where a character begins, and a cut anywhere
else is undefined rather than rounded.
-/

set_option autoImplicit false

namespace DocComment

abbrev Text := List Char

namespace Text

/-- The characters with the White_Space property. -/
def isSpace (c : Char) : Bool :=
  let n := c.toNat
  (0x9 ≤ n && n ≤ 0xD) || n == 0x20 || n == 0x85 || n == 0xA0 || n == 0x1680 ||
    (0x2000 ≤ n && n ≤ 0x200A) || n == 0x2028 || n == 0x2029 || n == 0x202F ||
    n == 0x205F || n == 0x3000

/-- The control characters, U+0000 to U+001F and U+007F to U+009F. -/
def isControl (c : Char) : Bool :=
  c.toNat < 0x20 || (0x7F ≤ c.toNat && c.toNat < 0xA0)

def isBlank (t : Text) : Bool := t.all isSpace

def trimStart (t : Text) : Text := t.dropWhile isSpace

theorem trimStart_length (t : Text) : (trimStart t).length ≤ t.length :=
  (List.dropWhile_sublist _).length_le

def trimEnd (t : Text) : Text := (t.reverse.dropWhile isSpace).reverse

def trim (t : Text) : Text := trimEnd (trimStart t)

/-- Removes every leading and every trailing `c`. -/
def trimMatches (c : Char) (t : Text) : Text :=
  ((t.dropWhile (· == c)).reverse.dropWhile (· == c)).reverse

/-- The number of leading spaces, U+0020 only. -/
def indent (t : Text) : Nat := (t.takeWhile (· == ' ')).length

/-- Whether `a` is `b` or comes before it in the order of code points. -/
def precedes : Text → Text → Bool
  | [], _ => true
  | _ :: _, [] => false
  | c :: a, d :: b => if c = d then precedes a b else c.toNat < d.toNat

/-! ## Sizes and cuts in bytes -/

def bytes : Text → Nat
  | [] => 0
  | c :: t => c.utf8Size + bytes t

/-- What is left after the first `n` bytes, if `n` falls between two characters. -/
def dropBytes? : Nat → Text → Option Text
  | 0, t => some t
  | _ + 1, [] => none
  | n + 1, c :: t => if c.utf8Size ≤ n + 1 then dropBytes? (n + 1 - c.utf8Size) t else none

/-- The first `n` bytes, if `n` falls between two characters. -/
def takeBytes? : Nat → Text → Option Text
  | 0, _ => some []
  | _ + 1, [] => none
  | n + 1, c :: t =>
    if c.utf8Size ≤ n + 1 then (takeBytes? (n + 1 - c.utf8Size) t).map (c :: ·) else none

/-- The bytes from `start` up to `stop`, if both fall between two characters. -/
def slice? (start stop : Nat) (t : Text) : Option Text :=
  if start ≤ stop then (takeBytes? stop t).bind (dropBytes? start) else none

/-! ## Searching and splitting -/

/-- What follows `front` in a text that starts with it. -/
def dropPrefix? : Text → Text → Option Text
  | [], t => some t
  | _ :: _, [] => none
  | c :: front, d :: t => if c = d then dropPrefix? front t else none

theorem dropPrefix?_eq_some {front t rest : Text} :
    dropPrefix? front t = some rest ↔ t = front ++ rest := by
  induction front generalizing t with
  | nil => simp [dropPrefix?, eq_comm]
  | cons c front ih =>
    cases t with
    | nil => simp [dropPrefix?]
    | cons d t => by_cases h : c = d <;> simp [dropPrefix?, h, ih, eq_comm]

/-- What stands before `back` in a text that ends with it. -/
def dropSuffix? (back t : Text) : Option Text :=
  (dropPrefix? back.reverse t.reverse).map List.reverse

theorem dropSuffix?_eq_some {back t body : Text} :
    dropSuffix? back t = some body ↔ t = body ++ back := by
  rw [dropSuffix?, Option.map_eq_some_iff]
  constructor
  · rintro ⟨front, h, rfl⟩
    rw [← List.reverse_inj, dropPrefix?_eq_some.1 h]
    simp
  · rintro rfl
    exact ⟨body.reverse, dropPrefix?_eq_some.2 (by simp), by simp⟩

/-- The text before the first character that `p` accepts and the text after it. -/
def splitFirst? (p : Char → Bool) : Text → Option (Text × Text)
  | [] => none
  | c :: t => if p c then some ([], t) else (splitFirst? p t).map fun s => (c :: s.1, s.2)

theorem splitFirst?_append {p : Char → Bool} {t before after : Text}
    (h : splitFirst? p t = some (before, after)) :
    ∃ c, t = before ++ c :: after ∧ p c = true := by
  induction t generalizing before with
  | nil => simp [splitFirst?] at h
  | cons c t ih =>
    rw [splitFirst?] at h
    split at h
    · next hc =>
      cases h
      exact ⟨c, rfl, hc⟩
    · obtain ⟨⟨b, a⟩, hs, he⟩ := Option.map_eq_some_iff.1 h
      cases he
      obtain ⟨d, rfl, hd⟩ := ih hs
      exact ⟨d, rfl, hd⟩

theorem splitFirst?_length {p : Char → Bool} {t before after : Text}
    (h : splitFirst? p t = some (before, after)) : after.length < t.length := by
  obtain ⟨c, rfl, -⟩ := splitFirst?_append h
  simp only [List.length_append, List.length_cons]
  omega

theorem splitFirst?_of_not {p : Char → Bool} {front : Text} (h : ∀ c ∈ front, p c = false) :
    splitFirst? p front = none := by
  induction front with
  | nil => rfl
  | cons c front ih =>
    obtain ⟨here, later⟩ := List.forall_mem_cons.1 h
    simp [splitFirst?, here, ih later]

theorem splitFirst?_at {p : Char → Bool} {front : Text} (h : ∀ c ∈ front, p c = false) {d : Char}
    (hd : p d = true) (rest : Text) : splitFirst? p (front ++ d :: rest) = some (front, rest) := by
  induction front with
  | nil => simp [splitFirst?, hd]
  | cons c front ih =>
    obtain ⟨here, later⟩ := List.forall_mem_cons.1 h
    simp [splitFirst?, here, ih later]

/-- The maximal runs of characters that are not spaces. -/
def words (t : Text) : List Text := (t.splitOnP isSpace).filter fun word => !word.isEmpty

/-- How often `pattern` occurs in a text, reading from the left without overlap. -/
def occurrences (pattern : Text) : Nat → Text → Nat
  | _, [] => 0
  | skip + 1, _ :: t => occurrences pattern skip t
  | 0, c :: t =>
    if pattern.isPrefixOf (c :: t) then 1 + occurrences pattern (pattern.length - 1) t
    else occurrences pattern 0 t

/-! ## Letter case, ASCII only -/

def lower (t : Text) : Text := t.map Char.toLower

/-- Whether a text starts with a pattern up to ASCII case. -/
def startsWithIgnoringCase : Text → Text → Bool
  | [], _ => true
  | _ :: _, [] => false
  | c :: pattern, d :: t => c.toLower == d.toLower && startsWithIgnoringCase pattern t

/-! ## Lines -/

/-- Drops one carriage return at the end. -/
def dropReturn (t : Text) : Text :=
  match t.getLast? with
  | some '\r' => t.dropLast
  | _ => t

/-- The pieces between line feeds, each of which loses one carriage return before its
line feed; an empty last piece is no line. -/
def linesOf : List Text → List Text
  | [] => []
  | [last] => if last.isEmpty then [] else [last]
  | line :: rest => dropReturn line :: linesOf rest

def lines (t : Text) : List Text := linesOf (t.splitOn '\n')

def unlines (ls : List Text) : Text := ['\n'].intercalate ls

/-- The least number of leading spaces over the lines that are not blank. -/
def commonIndent (ls : List Text) : Nat :=
  ((ls.filter fun l => !isBlank l).map indent).min?.getD 0

end Text

end DocComment
