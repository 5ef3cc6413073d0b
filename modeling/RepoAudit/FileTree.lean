import RepoAudit.Path

/-!
# File trees

The files of a machine as one value: directories, and files with their bytes, each under its
route from the root. There are no links. Operations take a path as written and the route of the
working directory, pass every directory on the way, and refuse with the cause that the operating
system would report. A refused operation changes nothing.
-/

namespace RepoAudit

/-- Why a file operation was refused. -/
inductive FileError where
  /-- A component of the path does not exist. -/
  | notFound
  /-- Permission was denied. -/
  | denied
  /-- Something stands where a new entry was to be made. -/
  | occupied
  /-- A component on the way is not a directory. -/
  | notDirectory
  /-- A directory stands where a file was asked for. -/
  | isDirectory
  /-- A name has more bytes than a directory can hold. -/
  | nameTooLong
  /-- The file holds bytes that are not UTF-8. -/
  | notText
  /-- The path holds a null character. -/
  | nullInPath
  /-- An argument of a program holds a null character. -/
  | nullInArgument
  /-- None of a path's directories could be made. -/
  | wholeTree
deriving DecidableEq, Repr

/-- The operating system's wording of a refusal. -/
def FileError.message : FileError → String
  | .notFound => "No such file or directory (os error 2)"
  | .denied => "Permission denied (os error 13)"
  | .occupied => "File exists (os error 17)"
  | .notDirectory => "Not a directory (os error 20)"
  | .isDirectory => "Is a directory (os error 21)"
  | .nameTooLong => "File name too long (os error 36)"
  | .notText => "stream did not contain valid UTF-8"
  | .nullInPath => "file name contained an unexpected NUL byte"
  | .nullInArgument => "nul byte found in provided data"
  | .wholeTree => "failed to create whole tree"

/-- The names on the way from the root to an entry. -/
abbrev Route := List String

/-- What stands at a route. -/
inductive Node where
  /-- A file with its bytes. -/
  | file (content : ByteArray)
  /-- A directory. -/
  | directory

/-- The files and directories of a machine, each under its route. The root is not listed. -/
structure FileTree where
  /-- The entries, in no particular order. -/
  entries : List (Route × Node)

namespace FileTree

/-- The tree with the root alone. -/
def empty : FileTree := ⟨[]⟩

/-- What stands at a route. -/
def node? (t : FileTree) (r : Route) : Option Node :=
  match r with
  | [] => some .directory
  | _ => (t.entries.find? fun e => e.1 == r).map (·.2)

/-- The tree with a route set to a node. -/
def set (t : FileTree) (r : Route) (n : Node) : FileTree :=
  ⟨(r, n) :: t.entries.filter fun e => e.1 != r⟩

/-- The tree without the entry at a route. -/
def unset (t : FileTree) (r : Route) : FileTree :=
  ⟨t.entries.filter fun e => e.1 != r⟩

/-- Where a path ends: at a directory known without a name, or at a name in a directory. -/
inductive Place where
  /-- The root, or a directory reached by a dot or a double dot. -/
  | directory (route : Route)
  /-- A name in a directory, and whether a slash follows it. -/
  | entry (parent : Route) (name : String) (slash : Bool)

/-- The largest number of bytes in a name. -/
def maxNameLength : Nat := 255

/-- Passes the directories that some segments name. -/
def descend (t : FileTree) : Route → List (List Char) → Except FileError Route
  | here, [] => .ok here
  | here, segment :: rest =>
    if segment == ['.', '.'] then descend t here.dropLast rest
    else if Path.isSilent segment then descend t here rest
    else
      let next := here ++ [String.ofList segment]
      if maxNameLength < Text.byteLength segment then .error .nameTooLong
      else
        match t.node? next with
        | none => .error .notFound
        | some (.file _) => .error .notDirectory
        | some .directory => descend t next rest

/-- The place that a path names, once every directory before its last segment has been passed. -/
def place (t : FileTree) (here : Route) (p : Path) : Except FileError Place :=
  if p.chars.isEmpty then .error .notFound
  else if p.chars.contains (Char.ofNat 0) then .error .nullInPath
  else
    let start := if p.isAbsolute then [] else here
    let segments := p.segments.filter fun s => !s.isEmpty
    match segments.getLast? with
    | none => .ok (.directory start)
    | some last =>
      if last == ['.'] || last == ['.', '.'] then (descend t start segments).map .directory
      else if maxNameLength < Text.byteLength last then
        (descend t start segments.dropLast).bind fun _ => .error .nameTooLong
      else
        (descend t start segments.dropLast).map fun parent =>
          .entry parent (String.ofList last) (p.chars.getLast? == some '/')

/-- The route of what a path names, and what stands there. -/
def lookup (t : FileTree) (here : Route) (p : Path) : Except FileError (Route × Node) :=
  match t.place here p with
  | .error e => .error e
  | .ok (.directory r) => .ok (r, .directory)
  | .ok (.entry parent name slash) =>
    match t.node? (parent ++ [name]) with
    | none => .error .notFound
    | some .directory => .ok (parent ++ [name], .directory)
    | some (.file content) =>
      if slash then .error .notDirectory else .ok (parent ++ [name], .file content)

/-- Whether something stands at a path. -/
def isPresent (t : FileTree) (here : Route) (p : Path) : Bool :=
  (t.lookup here p).isOk

/-- Whether a path names a file. -/
def isFile (t : FileTree) (here : Route) (p : Path) : Bool :=
  match t.lookup here p with
  | .ok (_, .file _) => true
  | _ => false

/-- Whether a path names a directory. -/
def isDirectory (t : FileTree) (here : Route) (p : Path) : Bool :=
  match t.lookup here p with
  | .ok (_, .directory) => true
  | _ => false

/-- The bytes of a file. -/
def readBytes (t : FileTree) (here : Route) (p : Path) : Except FileError ByteArray :=
  match t.lookup here p with
  | .error e => .error e
  | .ok (_, .directory) => .error .isDirectory
  | .ok (_, .file content) => .ok content

/-- The text of a file. -/
def readText (t : FileTree) (here : Route) (p : Path) : Except FileError String :=
  match t.readBytes here p with
  | .error e => .error e
  | .ok content =>
    match String.fromUTF8? content with
    | some s => .ok s
    | none => .error .notText

/-- The tree with the bytes of a file computed from those it had (none if it is new). -/
def change (t : FileTree) (here : Route) (p : Path) (f : Option ByteArray → ByteArray) :
    Except FileError FileTree :=
  match t.place here p with
  | .error e => .error e
  | .ok (.directory _) => .error .isDirectory
  | .ok (.entry parent name slash) =>
    if slash then .error .isDirectory
    else
      match t.node? (parent ++ [name]) with
      | some .directory => .error .isDirectory
      | some (.file content) => .ok (t.set (parent ++ [name]) (.file (f (some content))))
      | none => .ok (t.set (parent ++ [name]) (.file (f none)))

/-- The tree with a file holding exactly some bytes. -/
def write (t : FileTree) (here : Route) (p : Path) (content : ByteArray) :
    Except FileError FileTree :=
  t.change here p fun _ => content

/-- The tree with some bytes added at the end of a file. -/
def append (t : FileTree) (here : Route) (p : Path) (content : ByteArray) :
    Except FileError FileTree :=
  t.change here p fun old => (old.getD ByteArray.empty) ++ content

/-- The tree with one new directory. -/
def makeDirectory (t : FileTree) (here : Route) (p : Path) : Except FileError FileTree :=
  match t.place here p with
  | .error e => .error e
  | .ok (.directory _) => .error .occupied
  | .ok (.entry parent name _) =>
    match t.node? (parent ++ [name]) with
    | some _ => .error .occupied
    | none => .ok (t.set (parent ++ [name]) .directory)

/-- Makes the first of some directories, each the parent of the one before it, and those of its
parents that are missing. Directories made before a refusal stay. -/
def makeChain (t : FileTree) (here : Route) : List Path → FileTree × Except FileError Unit
  | [] => (t, .error .wholeTree)
  | p :: parents =>
    if p.chars.isEmpty then (t, .ok ())
    else
      match t.makeDirectory here p with
      | .ok t' => (t', .ok ())
      | .error .notFound =>
        match makeChain t here parents with
        | (t', .error e) => (t', .error e)
        | (t', .ok ()) =>
          match t'.makeDirectory here p with
          | .ok t'' => (t'', .ok ())
          | .error e => (t', if t'.isDirectory here p then .ok () else .error e)
      | .error e => (t, if t.isDirectory here p then .ok () else .error e)

/-- Makes a directory and every parent that is missing. -/
def makeDirectories (t : FileTree) (here : Route) (p : Path) : FileTree × Except FileError Unit :=
  t.makeChain here p.ancestors

/-- The tree in which a file has moved to another path, over any file there. -/
def rename (t : FileTree) (here : Route) (source target : Path) : Except FileError FileTree :=
  match t.lookup here source with
  | .error e => .error e
  | .ok (_, .directory) => .error .isDirectory
  | .ok (r, .file content) =>
    match t.place here target with
    | .error e => .error e
    | .ok (.directory _) => .error .isDirectory
    | .ok (.entry parent name slash) =>
      if slash then .error .notDirectory
      else
        match t.node? (parent ++ [name]) with
        | some .directory => .error .isDirectory
        | _ => .ok ((t.unset r).set (parent ++ [name]) (.file content))

/-- The tree without whatever stands at a route or below it. -/
def prune (t : FileTree) (r : Route) : FileTree :=
  ⟨t.entries.filter fun e => !r.isPrefixOf e.1⟩

/-- The names in a directory, in no particular order. -/
def children (t : FileTree) (r : Route) : List String :=
  t.entries.filterMap fun e =>
    if e.1.dropLast == r && !e.1.isEmpty then e.1.getLast? else none

/-- The routes of all files, in no particular order. -/
def fileRoutes (t : FileTree) : List Route :=
  t.entries.filterMap fun e =>
    match e.2 with
    | .file _ => some e.1
    | .directory => none

/-- The absolute path of a route. -/
def pathOf (r : Route) : Path :=
  ⟨"/" ++ "/".intercalate r⟩

end FileTree

end RepoAudit
