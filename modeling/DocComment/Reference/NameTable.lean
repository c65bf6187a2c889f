import DocComment.Corpus.Model
import DocComment.Corpus.Path

/-!
# Looking up references

All names that a reference can use stand in one list, and the first match counts: anchors,
group names, symbol names, members with their owner, group titles, file paths, file names.
-/

set_option autoImplicit false

namespace DocComment

structure NameTable where
  names : List (Text × Target)
  groupTitles : List Text

namespace NameTable

/-- What may stand between an owner and its member. -/
def separators : List Text := ["::".toList, ".".toList, "#".toList]

/-- The names of a symbol that include its owner. -/
def memberNames (m : Model) (s : Symbol) : List (Text × Target) :=
  match s.owner.bind fun i => m.symbols[i]? with
  | some owner => separators.map fun sep => (owner.name ++ sep ++ s.name, .symbol s.id)
  | none => []

/-- All names of a model, those that count first in front. -/
def namesOf (m : Model) : List (Text × Target) :=
  m.anchors.mapIdx (fun i a => (a.name, .anchor i)) ++
    m.groups.map (fun g => (g.name, .group g.id)) ++
    m.symbols.map (fun s => (s.name, .symbol s.id)) ++
    m.symbols.flatMap (memberNames m) ++
    (m.groups.filter fun g => !g.title.isEmpty).map (fun g => (g.title, .group g.id)) ++
    m.files.map (fun f => (f.path, .file f.id)) ++
    m.files.filterMap (fun f => (Path.fileName? f.path).map (·, .file f.id))

def ofModel (m : Model) : NameTable := ⟨namesOf m, m.groups.map Group.shownTitle⟩

/-- The name that a reference asks for: spaces around it and one pair of parentheses after it
do not count. -/
def plainName (written : Text) : Text :=
  let t := Text.trim written
  (Text.dropSuffix? ['(', ')'] t).getD t

def find? (table : NameTable) (written : Text) : Option Target :=
  table.names.lookup (plainName written)

/-- What a reference shows that does not say so itself: the title of a group, and for anything
else what is written. -/
def label (table : NameTable) (target : Target) (written : Text) : Text :=
  match target with
  | .group i => table.groupTitles[i]?.getD written
  | _ => written

end NameTable

end DocComment
