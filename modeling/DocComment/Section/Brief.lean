import DocComment.Markup.Doc
import DocComment.Options

/-!
# Brief descriptions

A comment that does not mark its brief description has it in its first paragraph, if it
starts with one: the whole paragraph, or the part up to the end of its first sentence.
-/

set_option autoImplicit false

namespace DocComment.Section

/-- A text cut after the first full stop that a space follows. -/
def sentence? : Text → Option (Text × Text)
  | '.' :: ' ' :: rest => some (['.'], ' ' :: rest)
  | [] => none
  | c :: rest => (sentence? rest).map fun s => (c :: s.1, s.2)

/-- Inline nodes cut after the first sentence. A sentence ends in text that is not inside
any other node. -/
def cutSentence : List Node → List Node × List Node
  | [] => ([], [])
  | node :: rest =>
    let later := cutSentence rest
    match node with
    | .text t =>
      match sentence? t with
      | some (head, tail) =>
        let tail := Text.trimStart tail
        ([.text head], (if tail.isEmpty then [] else [.text tail]) ++ rest)
      | none => (node :: later.1, later.2)
    | _ => (node :: later.1, later.2)

/-- The brief description at the front of some blocks, and the blocks after it. -/
def takeBrief (rule : BriefRule) : List Node → Option Node × List Node
  | .paragraph body :: rest =>
    match rule with
    | .firstParagraph => (some (.paragraph body), rest)
    | .firstSentence =>
      let split := cutSentence body
      (some (.paragraph split.1),
        (if split.2.isEmpty then [] else [.paragraph split.2]) ++ rest)
  | blocks => (none, blocks)

end DocComment.Section
