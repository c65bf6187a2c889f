import DocComment.Line.Command

/-!
# Fences

A fence opens with a command of its own and captures everything up to its end tag as it
stands. The end tag is a mark and the end name; an end name that ends in a letter must
not run on into a longer word.
-/

set_option autoImplicit false

namespace DocComment

inductive Fence where
  | code
  | dot
  | msc
  | htmlOnly
  | xmlOnly
  | verbatim
  | formula
  deriving DecidableEq

namespace Fence

def all : List Fence := [code, dot, msc, htmlOnly, xmlOnly, verbatim, formula]

/-- The name of the command that opens a fence. -/
def name : Fence → Text
  | code => "code".toList
  | dot => "dot".toList
  | msc => "msc".toList
  | htmlOnly => "htmlonly".toList
  | xmlOnly => "xmlonly".toList
  | verbatim => "verbatim".toList
  | formula => "f[".toList

/-- The name of the command that closes a fence. -/
def endName : Fence → Text
  | code => "endcode".toList
  | dot => "enddot".toList
  | msc => "endmsc".toList
  | htmlOnly => "endhtmlonly".toList
  | xmlOnly => "endxmlonly".toList
  | verbatim => "endverbatim".toList
  | formula => "f]".toList

def ofName? (name : Text) : Option Fence := all.find? fun fence => fence.name == name

/-- Whether the end name may stand before this text. -/
def bounded (fence : Fence) (after : Text) : Bool :=
  fence == formula || !(after.head?.any Char.isAlphanum)

/-- The text after the end tag that `t` starts with. -/
def closeAt? (fence : Fence) (t : Text) : Option Text :=
  match t with
  | [] => none
  | mark :: rest =>
    if Command.isMark mark then
      (Text.dropPrefix? fence.endName rest).filter fence.bounded
    else none

/-- A line cut at its first end tag. -/
structure Closing where
  before : Text
  tag : Text
  after : Text
  deriving DecidableEq

def close? (fence : Fence) : Text → Option Closing
  | [] => none
  | c :: t =>
    match fence.closeAt? (c :: t) with
    | some after => some ⟨[], c :: fence.endName, after⟩
    | none => (fence.close? t).map fun cut => { cut with before := c :: cut.before }

theorem closeAt?_append {fence : Fence} {t after : Text} (h : fence.closeAt? t = some after) :
    ∃ mark, t = mark :: (fence.endName ++ after) := by
  cases t with
  | nil => simp [closeAt?] at h
  | cons mark rest =>
    simp only [closeAt?] at h
    split at h
    · obtain ⟨h, -⟩ := Option.filter_eq_some_iff.1 h
      exact ⟨mark, by rw [Text.dropPrefix?_eq_some.1 h]⟩
    · cases h

/-- The three parts of a cut make up the line, and the tag is not empty. -/
theorem close?_append {fence : Fence} {t : Text} {cut : Closing} (h : fence.close? t = some cut) :
    t = cut.before ++ (cut.tag ++ cut.after) ∧ cut.tag ≠ [] := by
  induction t generalizing cut with
  | nil => simp [close?] at h
  | cons c t ih =>
    rw [close?] at h
    split at h
    · next after hat =>
      obtain ⟨mark, hm⟩ := closeAt?_append hat
      simp only [Option.some.injEq] at h
      subst h
      simp_all
    · obtain ⟨inner, hi, rfl⟩ := Option.map_eq_some_iff.1 h
      simpa using ih hi

theorem close?_length {fence : Fence} {t : Text} {cut : Closing} (h : fence.close? t = some cut) :
    cut.after.length < t.length := by
  obtain ⟨ht, htag⟩ := close?_append h
  have := List.length_pos_iff.2 htag
  rw [ht]
  simp only [List.length_append]
  omega

/-- Where the first end tag starts and ends. -/
def closeSpan? (fence : Fence) (line : Text) : Option (Nat × Nat) :=
  (fence.close? line).map fun cut =>
    (Text.bytes cut.before, Text.bytes cut.before + Text.bytes cut.tag)

/-- Splits what follows the opening name into the argument of the fence and the body
that starts on the same line: code takes a language in braces, a diagram a caption in
quotes. -/
def argument (fence : Fence) (rest : Text) : Option Text × Text :=
  match fence with
  | code =>
    match rest with
    | '{' :: inner =>
      match Text.splitFirst? (· == '}') inner with
      | some (lang, body) =>
        let lang := (Text.trim lang).dropWhile (· == '.')
        (if lang.isEmpty then none else some lang, body)
      | none => (none, rest)
    | _ => (none, rest)
  | dot | msc =>
    match Text.trimStart rest with
    | '"' :: inner =>
      match Text.splitFirst? (· == '"') inner with
      | some (caption, body) => (some caption, body)
      | none => (none, rest)
    | _ => (none, rest)
  | _ => (none, rest)

/-- The body is the end of what follows the name. -/
theorem argument_suffix (fence : Fence) (rest : Text) : (fence.argument rest).2 <:+ rest := by
  have cut {p : Char → Bool} {t word body : Text} (h : Text.splitFirst? p t = some (word, body)) :
      body <:+ t := by
    obtain ⟨c, rfl, -⟩ := Text.splitFirst?_append h
    exact (List.suffix_cons c body).trans (List.suffix_append _ _)
  have quoted {c : Char} {inner word body : Text} {p : Char → Bool}
      (trimmed : Text.trimStart rest = c :: inner)
      (h : Text.splitFirst? p inner = some (word, body)) : body <:+ rest :=
    ((cut h).trans (List.suffix_cons c inner)).trans (trimmed ▸ List.dropWhile_suffix _)
  unfold argument
  split
  · split
    · split
      · next h => exact (cut h).trans (List.suffix_cons _ _)
      · exact List.suffix_rfl
    · exact List.suffix_rfl
  · split
    · next trimmed =>
      split
      · next h => exact quoted trimmed h
      · exact List.suffix_rfl
    · exact List.suffix_rfl
  · split
    · next trimmed =>
      split
      · next h => exact quoted trimmed h
      · exact List.suffix_rfl
    · exact List.suffix_rfl
  · exact List.suffix_rfl

theorem argument_length (fence : Fence) (rest : Text) :
    (fence.argument rest).2.length ≤ rest.length := (fence.argument_suffix rest).length_le

end Fence

end DocComment
