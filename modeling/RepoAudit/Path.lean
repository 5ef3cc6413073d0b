import RepoAudit.Text.Lines

/-!
# Paths

A path is kept as it was written. Its components are a view of it: repeated slashes and inner
single dots are silent, a leading dot of a relative path and every double dot are not. Two paths
are the same when their components are. Joining, parents and stripping work on the written form,
so that what is printed stays recognisable.
-/

namespace RepoAudit

/-- A file path as written. -/
structure Path where
  /-- The written form. -/
  text : String
deriving DecidableEq, Repr

/-- What one step of a path names. -/
inductive Component where
  /-- The root directory. -/
  | root
  /-- The directory itself, a leading dot. -/
  | current
  /-- The parent directory, a double dot. -/
  | parent
  /-- An entry of a directory. -/
  | name (name : List Char)
deriving DecidableEq, Repr

namespace Path

/-- The path written as some characters. -/
def ofList (cs : List Char) : Path :=
  ⟨String.ofList cs⟩

/-- The characters of a path. -/
def chars (p : Path) : List Char :=
  p.text.toList

/-- Whether the path starts at the root. -/
def isAbsolute (p : Path) : Bool :=
  p.chars.head? == some '/'

/-- The text between slashes, after the root. -/
def segments (p : Path) : List (List Char) :=
  if p.isAbsolute then Text.splitOn '/' p.chars.tail else Text.splitOn '/' p.chars

/-- A segment that names nothing where it is not the first of a relative path. -/
def isSilent (segment : List Char) : Bool :=
  segment.isEmpty || segment == ['.']

/-- The component that a segment names inside a path. -/
def componentOf (segment : List Char) : Component :=
  if segment == ['.', '.'] then .parent else .name segment

/-- The components of a path. -/
def components (p : Path) : List Component :=
  let inner (segments : List (List Char)) : List Component :=
    (segments.filter fun s => !isSilent s).map componentOf
  if p.isAbsolute then .root :: inner p.segments
  else
    match p.segments with
    | ['.'] :: rest => .current :: inner rest
    | segments => inner segments

/-- Whether two paths have the same components. -/
def same (p q : Path) : Bool :=
  p.components == q.components

/-- The path with another one written behind it; an absolute one takes its place. -/
def join (p q : Path) : Path :=
  if q.isAbsolute then q
  else
    match p.chars.getLast? with
    | none => q
    | some '/' => ofList (p.chars ++ q.chars)
    | some _ => ofList (p.chars ++ '/' :: q.chars)

/-- The path of an entry of the directory at `p`. -/
def entry (p : Path) (name : String) : Path :=
  p.join ⟨name⟩

/-- The segments without the silent ones at the end; a leading dot of a relative path counts. -/
def withoutSilentTail (absolute : Bool) (segments : List (List Char)) : List (List Char) :=
  let reversed := segments.reverse.dropWhile isSilent
  if reversed.isEmpty && !absolute && segments.head? == some ['.'] then [['.']]
  else reversed.reverse

/-- The written form of some segments. -/
def ofSegments (absolute : Bool) (segments : List (List Char)) : Path :=
  let body := ['/'].intercalate segments
  ofList (if absolute then '/' :: body else body)

/-- The path without its last component; the root and the empty path have no parent. -/
def parent? (p : Path) : Option Path :=
  match withoutSilentTail p.isAbsolute p.segments with
  | [] => none
  | segments => some (ofSegments p.isAbsolute (withoutSilentTail p.isAbsolute segments.dropLast))

/-- The last component, if it names an entry. -/
def fileName? (p : Path) : Option (List Char) :=
  match p.components.getLast? with
  | some (.name n) => some n
  | _ => none

/-- The characters of a file name after its last dot, unless that dot starts the name. -/
def extensionOf? (name : List Char) : Option (List Char) :=
  let tail := name.reverse.takeWhile (· ≠ '.')
  let lead := name.reverse.drop (tail.length + 1)
  if tail.length = name.length || lead.isEmpty then none else some tail.reverse

/-- The extension of the file that a path names. -/
def extension? (p : Path) : Option (List Char) :=
  p.fileName?.bind extensionOf?

/-- The segments that are left once as many components as `count` have been passed. -/
def dropComponents (count : Nat) : List (List Char) → List (List Char)
  | [] => []
  | s :: segments =>
    if isSilent s then dropComponents count segments
    else
      match count with
      | 0 => s :: segments
      | count + 1 => dropComponents count segments

/-- The relative path that is left of some segments once as many components as `count` have been
passed. -/
def restAfter (count : Nat) (segments : List (List Char)) : Path :=
  ofSegments false ((dropComponents count segments).reverse.dropWhile isSilent).reverse

/-- The rest of a path below `base`, if the components of `base` start those of the path. -/
def stripPrefix? (p base : Path) : Option Path :=
  let passed := base.components
  if passed.isPrefixOf p.components then
    match passed with
    | [] => some (ofSegments p.isAbsolute (withoutSilentTail p.isAbsolute p.segments))
    | .root :: inner => some (restAfter inner.length p.segments)
    | .current :: inner => some (restAfter inner.length p.segments.tail)
    | inner => some (restAfter inner.length p.segments)
  else none

/-- The rest of a path below `base`, or the path itself when it does not lie there. -/
def below (p base : Path) : Path :=
  (p.stripPrefix? base).getD p

/-- The written form of a component. -/
def segmentOf : Component → List Char
  | .root => []
  | .current => ['.']
  | .parent => ['.', '.']
  | .name n => n

/-- The path that some components spell. -/
def ofComponents : List Component → Path
  | .root :: inner => ofSegments true (inner.map segmentOf)
  | inner => ofSegments false (inner.map segmentOf)

/-- One component folded into the components passed so far, which are kept in reverse: a dot is
dropped and a double dot takes back the component before it, unless there is none to take back. -/
def foldComponent (passed : List Component) : Component → List Component
  | .current => passed
  | .parent =>
    match passed with
    | [] => [.parent]
    | .root :: rest => .parent :: .root :: rest
    | _ :: rest => rest
  | c => c :: passed

/-- The path with its dots and double dots folded away as far as its text alone allows. -/
def normalize (p : Path) : Path :=
  ofComponents (p.components.foldl foldComponent []).reverse

/-- The path and its parents, innermost first. -/
def ancestors (p : Path) : List Path :=
  let rec go : Nat → Path → List Path
    | 0, p => [p]
    | fuel + 1, p =>
      match p.parent? with
      | some q => p :: go fuel q
      | none => [p]
  go p.segments.length p

end Path

end RepoAudit
