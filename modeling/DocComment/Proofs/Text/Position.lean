import DocComment.Text.Cursor
import DocComment.Proofs.Text.Run
import DocComment.Proofs.Text.Size

/-!
# Positions in bytes

A text can be cut where a character begins. Tests that accept nothing but ASCII characters can be
put to single bytes, at any position: no byte of another character passes them.
-/

set_option autoImplicit false

namespace DocComment.Text

/-! ## Cuts -/

theorem dropBytes?_cons (c : Char) (n : Nat) (t : Text) :
    dropBytes? (c.utf8Size + n) (c :: t) = dropBytes? n t := by
  obtain ⟨k, size⟩ := Nat.exists_eq_add_one.2 (Nat.add_pos_left c.utf8Size_pos n)
  rw [size, dropBytes?, if_pos (by omega)]
  congr 1
  omega

theorem takeBytes?_cons (c : Char) (n : Nat) (t : Text) :
    takeBytes? (c.utf8Size + n) (c :: t) = (takeBytes? n t).map (c :: ·) := by
  obtain ⟨k, size⟩ := Nat.exists_eq_add_one.2 (Nat.add_pos_left c.utf8Size_pos n)
  rw [size, takeBytes?, if_pos (by omega)]
  congr 2
  omega

@[simp]
theorem dropBytes?_bytes (a b : Text) : dropBytes? (bytes a) (a ++ b) = some b := by
  induction a with
  | nil => simp [dropBytes?]
  | cons c a ih => rw [bytes_cons, List.cons_append, dropBytes?_cons, ih]

@[simp]
theorem takeBytes?_bytes (a b : Text) : takeBytes? (bytes a) (a ++ b) = some a := by
  induction a with
  | nil => simp [takeBytes?]
  | cons c a ih => rw [bytes_cons, List.cons_append, takeBytes?_cons, ih, Option.map_some]

theorem slice?_bytes (a b c : Text) :
    slice? (bytes a) (bytes (a ++ b)) (a ++ b ++ c) = some b := by
  rw [slice?, if_pos (by simp), takeBytes?_bytes, Option.bind_some, dropBytes?_bytes]

/-- A cut is defined where a character begins or the text ends, and nowhere else. -/
theorem dropBytes?_eq_some {n : Nat} {t rest : Text} :
    dropBytes? n t = some rest ↔ ∃ front, bytes front = n ∧ t = front ++ rest := by
  constructor
  · intro h
    fun_induction dropBytes? n t with
    | case1 t =>
      cases h
      exact ⟨[], rfl, rfl⟩
    | case2 n => cases h
    | case3 n c t fits ih =>
      obtain ⟨front, size, rfl⟩ := ih h
      refine ⟨c :: front, ?_, rfl⟩
      rw [bytes_cons]
      omega
    | case4 n c t fits => cases h
  · rintro ⟨front, rfl, rfl⟩
    exact dropBytes?_bytes front rest

theorem dropBytes?_suffix {n : Nat} {t rest : Text} (h : dropBytes? n t = some rest) :
    rest <:+ t := by
  obtain ⟨front, -, rfl⟩ := dropBytes?_eq_some.1 h
  exact List.suffix_append front rest

theorem bytes_spaces (n : Nat) : bytes (List.replicate n ' ') = n := by
  induction n with
  | zero => rfl
  | succ n ih =>
    have one : ' '.utf8Size = 1 := rfl
    rw [List.replicate_succ, bytes_cons, ih, one]
    omega

theorem le_of_dropBytes? {n : Nat} {t rest : Text} (h : dropBytes? n t = some rest) :
    n ≤ bytes t := by
  obtain ⟨front, rfl, rfl⟩ := dropBytes?_eq_some.1 h
  simp

/-! ## Searching -/

/-- The position of the first occurrence of a pattern. -/
def search? (pattern : Text) : Text → Option Nat
  | [] => if pattern.isEmpty then some 0 else none
  | c :: t =>
    if pattern.isPrefixOf (c :: t) then some 0 else (search? pattern t).map (c.utf8Size + ·)

/-- The first occurrence is cut off by what `search?` says, and nothing in front of it is one. -/
theorem search?_eq_some {pattern t : Text} {n : Nat} (h : search? pattern t = some n) :
    ∃ before after, t = before ++ (pattern ++ after) ∧ n = bytes before ∧
      ∀ a b, before = a ++ b → b ≠ [] → ¬pattern <+: b ++ (pattern ++ after) := by
  induction t generalizing n with
  | nil =>
    simp only [search?, List.isEmpty_iff, Option.ite_none_right_eq_some, Option.some.injEq] at h
    obtain ⟨rfl, rfl⟩ := h
    exact ⟨[], [], rfl, rfl, fun a b split nonempty => by simp_all⟩
  | cons c t ih =>
    rw [search?] at h
    split at h
    next here =>
      cases h
      obtain ⟨after, whole⟩ := List.isPrefixOf_iff_prefix.1 here
      exact ⟨[], after, whole.symm, rfl, fun a b split nonempty => by simp_all⟩
    next here =>
      obtain ⟨m, found, rfl⟩ := Option.map_eq_some_iff.1 h
      obtain ⟨before, after, rfl, rfl, first⟩ := ih found
      refine ⟨c :: before, after, rfl, rfl, fun a b split nonempty => ?_⟩
      cases a with
      | nil =>
        rw [List.nil_append] at split
        rw [← split]
        exact fun pre => here (List.isPrefixOf_iff_prefix.2 pre)
      | cons d a => exact first a b (List.cons.inj split).2 nonempty

theorem search?_eq_none {pattern t : Text} (h : search? pattern t = none) : ¬pattern <:+: t := by
  induction t with
  | nil =>
    simp only [search?, List.isEmpty_iff, ite_eq_right_iff, reduceCtorEq, imp_false] at h
    simpa using h
  | cons c t ih =>
    rw [search?] at h
    split at h
    next => cases h
    next here =>
      rw [List.infix_cons_iff, not_or]
      exact ⟨fun pre => here (List.isPrefixOf_iff_prefix.2 pre), ih (Option.map_eq_none_iff.1 h)⟩

/-! ## Bytes -/

@[simp]
theorem utf8_nil : utf8 [] = [] := rfl

@[simp]
theorem utf8_cons (c : Char) (t : Text) : utf8 (c :: t) = String.utf8EncodeChar c ++ utf8 t := by
  simp [utf8]

@[simp]
theorem utf8_append (a b : Text) : utf8 (a ++ b) = utf8 a ++ utf8 b := by
  simp [utf8]

@[simp]
theorem length_utf8 (t : Text) : (utf8 t).length = bytes t := by
  induction t with
  | nil => rfl
  | cons c t ih => simp [ih]

theorem encode_ascii {c : Char} (h : c.toNat < 128) :
    String.utf8EncodeChar c = [UInt8.ofNat c.toNat] := by
  have low : c.val.toNat ≤ 127 := Nat.le_of_lt_succ h
  rw [String.utf8EncodeChar, if_pos low]
  rfl

theorem encode_wide {c : Char} (h : 128 ≤ c.toNat) :
    ∀ byte ∈ String.utf8EncodeChar c, 128 ≤ byte.toNat := by
  have high : ¬c.val.toNat ≤ 127 := Nat.not_le.2 h
  unfold String.utf8EncodeChar
  simp only [high, if_false]
  intro byte mem
  split_ifs at mem <;>
    simp only [List.mem_cons, List.not_mem_nil, or_false] at mem <;>
    rcases mem with rfl | rfl | rfl | rfl <;>
    simp only [UInt8.toNat_ofNat'] <;> omega

theorem encode_ne_nil (c : Char) : String.utf8EncodeChar c ≠ [] := by
  have size := String.length_utf8EncodeChar c
  have pos := c.utf8Size_pos
  intro empty
  rw [empty, List.length_nil] at size
  omega

/-- A test of characters put to a byte, which stands for the character with its number. -/
def onByte (p : Char → Bool) (byte : UInt8) : Bool := p (Char.ofUInt8 byte)

/-- A test that accepts ASCII characters only. -/
def Ascii (p : Char → Bool) : Prop := ∀ c, p c = true → c.toNat < 128

theorem ascii_eq {c : Char} (h : c.toNat < 128) : Ascii (· == c) := by
  intro d same
  rwa [beq_iff_eq.1 same]

theorem ascii_or {p q : Char → Bool} (hp : Ascii p) (hq : Ascii q) : Ascii fun c => p c || q c := by
  intro c accepted
  rcases Bool.or_eq_true_iff.1 accepted with h | h
  · exact hp c h
  · exact hq c h

theorem ascii_isAlpha : Ascii Char.isAlpha := by
  intro c letter
  have := isAlpha_range letter
  omega

theorem ascii_isAlphanum : Ascii Char.isAlphanum := by
  refine ascii_or ascii_isAlpha fun c digit => ?_
  simp only [Char.isDigit, Bool.and_eq_true, decide_eq_true_eq, UInt32.le_iff_toNat_le] at digit
  exact Nat.lt_of_le_of_lt digit.2 (by decide)

theorem toNat_ofUInt8 (byte : UInt8) : (Char.ofUInt8 byte).toNat = byte.toNat := rfl

theorem onByte_ascii (p : Char → Bool) {c : Char} (h : c.toNat < 128) :
    onByte p (UInt8.ofNat c.toNat) = p c := by
  have same : Char.ofUInt8 (UInt8.ofNat c.toNat) = c := by
    apply Char.ext
    apply UInt32.toNat.inj
    have number := toNat_ofUInt8 (UInt8.ofNat c.toNat)
    rw [UInt8.toNat_ofNat', Nat.mod_eq_of_lt (by omega)] at number
    exact number
  rw [onByte, same]

/-- Every byte of a character answers for the character. -/
theorem onByte_encode {p : Char → Bool} (ascii : Ascii p) (c : Char) :
    ∀ byte ∈ String.utf8EncodeChar c, onByte p byte = p c := by
  intro byte mem
  rcases Nat.lt_or_ge c.toNat 128 with low | high
  · rw [encode_ascii low, List.mem_singleton] at mem
    rw [mem, onByte_ascii p low]
  · have outside : ∀ d : Char, 128 ≤ d.toNat → p d = false := fun d wide =>
      Bool.eq_false_iff.2 fun accepted => Nat.not_lt.2 wide (ascii d accepted)
    rw [outside c high]
    exact outside _ (encode_wide high byte mem)

/-- A byte that passes is a character of its own. -/
theorem exists_char_of_onByte {p : Char → Bool} (ascii : Ascii p) {t : Text} {n : Nat}
    {byte : UInt8} (h : (utf8 t)[n]? = some byte) (accepted : onByte p byte = true) :
    ∃ before c after, t = before ++ c :: after ∧ bytes before = n ∧ p c = true := by
  induction t generalizing n with
  | nil => simp at h
  | cons c t ih =>
    rw [utf8_cons] at h
    rcases Nat.lt_or_ge n c.utf8Size with within | behind
    · rw [List.getElem?_append_left (by rwa [String.length_utf8EncodeChar])] at h
      have passes : p c = true := by
        rw [← onByte_encode ascii c byte (List.mem_of_getElem? h), accepted]
      have single := String.length_utf8EncodeChar c
      rw [encode_ascii (ascii c passes), List.length_singleton] at single
      exact ⟨[], c, t, rfl, by rw [bytes_nil]; omega, passes⟩
    · rw [List.getElem?_append_right (by rwa [String.length_utf8EncodeChar]),
        String.length_utf8EncodeChar] at h
      obtain ⟨before, d, after, rfl, size, passes⟩ := ih h
      exact ⟨c :: before, d, after, rfl, by rw [bytes_cons]; omega, passes⟩

theorem map_head? {p : Char → Bool} (ascii : Ascii p) (t : Text) :
    (utf8 t).head?.map (onByte p) = t.head?.map p := by
  cases t with
  | nil => rfl
  | cons c t =>
    obtain ⟨byte, more, encoded⟩ := List.exists_cons_of_ne_nil (encode_ne_nil c)
    have first := onByte_encode ascii c byte (by simp [encoded])
    simp [encoded, first]

theorem map_getLast? {p : Char → Bool} (ascii : Ascii p) (t : Text) :
    (utf8 t).getLast?.map (onByte p) = t.getLast?.map p := by
  induction t using List.reverseRecOn with
  | nil => rfl
  | append_singleton t c =>
    have back := List.getLast?_eq_some_getLast (encode_ne_nil c)
    have last := onByte_encode ascii c _ (List.getLast_mem (encode_ne_nil c))
    simp [List.getLast?_append, back, last]

theorem any_head? {p : Char → Bool} (ascii : Ascii p) (t : Text) :
    (utf8 t).head?.any (onByte p) = t.head?.any p := by
  simpa [Option.any_map] using congrArg (Option.any id) (map_head? ascii t)

theorem all_getLast? {p : Char → Bool} (ascii : Ascii p) (t : Text) :
    (utf8 t).getLast?.all (onByte p) = t.getLast?.all p := by
  simpa [Option.all_map] using congrArg (Option.all id) (map_getLast? ascii t)

theorem takeWhile_utf8 {p : Char → Bool} (ascii : Ascii p) (t : Text) :
    (utf8 t).takeWhile (onByte p) = utf8 (t.takeWhile p) := by
  induction t with
  | nil => rfl
  | cons c t ih =>
    have here := onByte_encode ascii c
    cases accepted : p c with
    | true =>
      rw [utf8_cons, List.takeWhile_append_of_pos fun byte mem => by rw [here byte mem, accepted],
        ih, List.takeWhile_cons_of_pos accepted, utf8_cons]
    | false =>
      obtain ⟨byte, more, encoded⟩ := List.exists_cons_of_ne_nil (encode_ne_nil c)
      have first := here byte (by simp [encoded])
      simp [encoded, first, accepted]

/-- Changes of characters and of bytes that agree on ASCII and keep apart from it what is not. -/
structure Folds (onChar : Char → Char) (onByte : UInt8 → UInt8) : Prop where
  ascii : ∀ c, c.toNat < 128 → (onChar c).toNat < 128 ∧
    onByte (UInt8.ofNat c.toNat) = UInt8.ofNat (onChar c).toNat
  wideChar : ∀ c, 128 ≤ c.toNat → 128 ≤ (onChar c).toNat
  wideByte : ∀ byte, 128 ≤ byte.toNat → 128 ≤ (onByte byte).toNat

theorem Folds.id : Folds id id := by
  constructor <;> simp

theorem Folds.lower : Folds Char.toLower Cursor.lowerByte where
  ascii := by
    have small : ∀ n < 128, (Char.ofNat n).toLower.toNat < 128 ∧
        Cursor.lowerByte (UInt8.ofNat n) = UInt8.ofNat (Char.ofNat n).toLower.toNat := by decide
    intro c low
    simpa using small c.toNat low
  wideChar c high := by
    have apart : ¬(c.val ≥ 'A'.val ∧ c.val ≤ 'Z'.val) := fun upper =>
      absurd (UInt32.le_iff_toNat_le.1 upper.2) (Nat.not_le.2 (Nat.lt_of_lt_of_le (by decide) high))
    rwa [Char.toLower, dif_neg apart]
  wideByte byte high := by
    have apart : ¬byte ≤ 90 := fun upper =>
      absurd (UInt8.le_iff_toNat_le.1 upper) (Nat.not_le.2 (Nat.lt_of_lt_of_le (by decide) high))
    simpa [Cursor.lowerByte, apart] using high

theorem ofNat_toNat_inj {c d : Char} (hc : c.toNat < 128) (hd : d.toNat < 128) :
    UInt8.ofNat c.toNat = UInt8.ofNat d.toNat ↔ c = d := by
  rw [← UInt8.toNat_inj, UInt8.toNat_ofNat', UInt8.toNat_ofNat', Nat.mod_eq_of_lt (by omega),
    Nat.mod_eq_of_lt (by omega), Char.toNat_inj]

/-- An ASCII pattern is at the front of a text if its bytes are. -/
theorem Folds.isPrefixOf {onChar : Char → Char} {onByte : UInt8 → UInt8}
    (folds : Folds onChar onByte) {pattern : Text} (ascii : ∀ c ∈ pattern, c.toNat < 128)
    (t : Text) : ((utf8 pattern).map onByte).isPrefixOf ((utf8 t).map onByte) =
      (pattern.map onChar).isPrefixOf (t.map onChar) := by
  induction pattern generalizing t with
  | nil => simp
  | cons c pattern ih =>
    obtain ⟨low, later⟩ := List.forall_mem_cons.1 ascii
    obtain ⟨lowC, sameC⟩ := folds.ascii c low
    cases t with
    | nil => simp [encode_ascii low]
    | cons d t =>
      rcases Nat.lt_or_ge d.toNat 128 with lowD | high
      · obtain ⟨lowD', sameD⟩ := folds.ascii d lowD
        have here : (UInt8.ofNat (onChar c).toNat == UInt8.ofNat (onChar d).toNat) =
            (onChar c == onChar d) := by
          rw [Bool.eq_iff_iff, beq_iff_eq, beq_iff_eq, ofNat_toNat_inj lowC lowD']
        rw [utf8_cons, utf8_cons, encode_ascii low, encode_ascii lowD]
        simp only [List.singleton_append, List.map_cons, sameC, sameD, List.isPrefixOf_cons_cons,
          here, ih later t]
      · obtain ⟨byte, more, encoded⟩ := List.exists_cons_of_ne_nil (encode_ne_nil d)
        have wide := folds.wideByte byte (encode_wide high byte (by simp [encoded]))
        have bytesApart : UInt8.ofNat (onChar c).toNat ≠ onByte byte := by
          intro same
          rw [← same, UInt8.toNat_ofNat', Nat.mod_eq_of_lt (by omega)] at wide
          omega
        have charsApart : onChar c ≠ onChar d := by
          intro same
          have := folds.wideChar d high
          rw [same] at lowC
          omega
        simp [encode_ascii low, encoded, sameC, List.isPrefixOf_cons_cons,
          beq_false_of_ne bytesApart, beq_false_of_ne charsApart]

theorem isPrefixOf_lower (pattern t : Text) :
    (pattern.map Char.toLower).isPrefixOf (t.map Char.toLower) =
      Text.startsWithIgnoringCase pattern t := by
  fun_induction Text.startsWithIgnoringCase pattern t with
  | case1 t => simp
  | case2 c pattern => simp
  | case3 c pattern d t ih => rw [List.map_cons, List.map_cons, List.isPrefixOf_cons_cons, ih]

theorem utf8Size_ascii {c : Char} (h : c.toNat < 128) : c.utf8Size = 1 := by
  rw [← String.length_utf8EncodeChar, encode_ascii h, List.length_singleton]

/-- What an ASCII pattern is matched with has as many bytes as the pattern has characters. -/
theorem exists_front {pattern t : Text} (ascii : ∀ c ∈ pattern, c.toNat < 128)
    (h : Text.startsWithIgnoringCase pattern t = true) : ∃ front rest, t = front ++ rest ∧
      front.map Char.toLower = pattern.map Char.toLower ∧ bytes front = pattern.length := by
  induction pattern generalizing t with
  | nil => exact ⟨[], t, rfl, rfl, rfl⟩
  | cons c pattern ih =>
    obtain ⟨low, later⟩ := List.forall_mem_cons.1 ascii
    cases t with
    | nil => cases h
    | cons d t =>
      rw [Text.startsWithIgnoringCase, Bool.and_eq_true, beq_iff_eq] at h
      obtain ⟨front, rest, rfl, lower, size⟩ := ih later h.2
      have narrow : d.toNat < 128 := by
        by_contra wide
        have := (Folds.lower.ascii c low).1
        have := Folds.lower.wideChar d (Nat.not_lt.1 wide)
        rw [h.1] at *
        omega
      refine ⟨d :: front, rest, rfl, by rw [List.map_cons, List.map_cons, h.1, lower], ?_⟩
      rw [bytes_cons, utf8Size_ascii narrow, size, List.length_cons, Nat.add_comm]

namespace Cursor

/-! ## Cursors -/

/-- The text from the cursor on, if the cursor stands between two characters. -/
def rest? (c : Cursor) : Option Text := dropBytes? c.position c.text

/-- The cursor between two parts of a text. -/
def between (before rest : Text) : Cursor := ⟨before ++ rest, bytes before⟩

@[simp]
theorem text_between (a b : Text) : (between a b).text = a ++ b := rfl

@[simp]
theorem position_between (a b : Text) : (between a b).position = bytes a := rfl

theorem start_eq (t : Text) : start t = between [] t := rfl

@[simp]
theorem rest?_between (a b : Text) : (between a b).rest? = some b := dropBytes?_bytes a b

theorem atEnd_cons (a : Text) (c : Char) (t : Text) : (between a (c :: t)).atEnd = false := by
  have := c.utf8Size_pos
  simp only [atEnd, text_between, position_between, bytes_append, bytes_cons,
    decide_eq_false_iff_not]
  omega

theorem peek_between (a b : Text) : (between a b).peek = (utf8 b).head? := by
  rw [peek, between, utf8_append, List.getElem?_append_right (by simp), length_utf8, Nat.sub_self,
    List.head?_eq_getElem?]

/-- The byte at the cursor answers for the character behind it. -/
theorem peek_cons (a : Text) (c : Char) (t : Text) :
    ∃ byte, (between a (c :: t)).peek = some byte ∧ ∀ p, Ascii p → onByte p byte = p c := by
  obtain ⟨byte, more, encoded⟩ := List.exists_cons_of_ne_nil (encode_ne_nil c)
  refine ⟨byte, by simp [peek_between, encoded], fun p ascii => ?_⟩
  exact onByte_encode ascii c byte (by simp [encoded])

theorem previous_between (a b : Text) : (between a b).previous = (utf8 a).getLast? := by
  rw [List.getLast?_eq_getElem?, length_utf8, previous]
  split
  next none =>
    have empty : utf8 a = [] := List.length_eq_zero_iff.1 ((length_utf8 a).trans none)
    simp [empty]
  next n some =>
    have size : bytes a = n + 1 := some
    rw [size, between, utf8_append, List.getElem?_append_left (by rw [length_utf8]; omega)]
    rfl

theorem advance_between (a b c : Text) :
    (between a (b ++ c)).advance (bytes b) = between (a ++ b) c := by
  simp [between, advance]

theorem bytesFrom?_between (a b : Text) : (between a b).bytesFrom? = some (utf8 b) := by
  simp [bytesFrom?, between]

theorem startsWith_between {pattern : Text} (ascii : ∀ c ∈ pattern, c.toNat < 128) (a b : Text) :
    (between a b).startsWith pattern = pattern.isPrefixOf b := by
  simpa [startsWith, bytesFrom?_between] using Folds.id.isPrefixOf ascii b

theorem startsWithIgnoringCase_between {pattern : Text} (ascii : ∀ c ∈ pattern, c.toNat < 128)
    (a b : Text) :
    (between a b).startsWithIgnoringCase pattern = Text.startsWithIgnoringCase pattern b := by
  rw [startsWithIgnoringCase, bytesFrom?_between, Option.any_some, Folds.lower.isPrefixOf ascii,
    isPrefixOf_lower]

/-- The bytes from the cursor on. -/
def left (c : Cursor) : Nat := bytes c.text - c.position

theorem left_advance {c : Cursor} (unread : c.position < bytes c.text) {n : Nat} (pos : 0 < n) :
    (c.advance n).left < c.left := by
  simp only [left, advance]
  omega

theorem lt_of_peek {c : Cursor} {byte : UInt8} (h : c.peek = some byte) :
    c.position < bytes c.text := by
  obtain ⟨here, -⟩ := List.getElem?_eq_some_iff.1 h
  simpa using here

end Cursor

end DocComment.Text
