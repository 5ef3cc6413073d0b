import RepoAudit.Failure
import RepoAudit.Instant.Basic

/-!
# The world of a command

What a command can see and change: the files of the machine, the programs that can be started and
the record of those that were, and the clock. The home directory is fixed. `Act` is a step in such
a world; it ends with a value or a failure, and what it did until then stays done.
-/

namespace RepoAudit

/-- What a program did: what it printed, the code it ended with, and the files it made below the
directory that its last argument names. -/
structure Reply where
  /-- The bytes it printed. -/
  output : ByteArray
  /-- The bytes it complained with. -/
  complaint : ByteArray
  /-- The code it ended with; zero is success. -/
  code : Nat
  /-- The files it made, with their paths and bytes; a directory has none. -/
  made : List (String × Option ByteArray)

/-- Whether the program succeeded. -/
def Reply.succeeded (r : Reply) : Bool :=
  r.code == 0

/-- A program under a name. -/
inductive Program where
  /-- There is no such program. -/
  | missing
  /-- It may not be started. -/
  | forbidden
  /-- It can be started and replies to its arguments. -/
  | present (reply : List String → Reply)

/-- A program that was started. -/
structure Call where
  /-- The name of the program. -/
  name : String
  /-- The directory it worked in. -/
  directory : Path
  /-- Its arguments. -/
  arguments : List String
deriving DecidableEq, Repr

/-- What a command can see and change. -/
structure World where
  /-- The files of the machine. -/
  files : FileTree
  /-- The route of the working directory. -/
  here : Route
  /-- The user's home directory. -/
  home : Path
  /-- The programs. -/
  programs : String → Program
  /-- The programs that were started, oldest first. -/
  calls : List Call
  /-- The instant of each look at the clock. -/
  clock : Nat → Instant
  /-- How often the clock was looked at. -/
  ticks : Nat

/-- A step in a world. -/
abbrev Act := ExceptT Failure (StateM World)

namespace Act

/-- Ends a step with a failure. -/
def fail {α : Type} (f : Failure) : Act α :=
  throw f

/-- The outcome of a step, its failure as a value. -/
def outcome {α : Type} (act : Act α) : Act (Except Failure α) :=
  fun w =>
    match act w with
    | (result, w') => (.ok result, w')

/-- A step that goes on with another failure when it fails. -/
def mapFailure {α : Type} (f : Failure → Failure) (act : Act α) : Act α :=
  fun w =>
    match act w with
    | (.ok a, w') => (.ok a, w')
    | (.error e, w') => (.error (f e), w')

/-- A look at the files. -/
def look {α : Type} (f : FileTree → Route → α) : Act α := do
  let w ← get
  pure (f w.files w.here)

/-- A change of the files, which stay as they were when it is refused. -/
def change (f : FileTree → Route → Except FileError FileTree) : Act (Except FileError Unit) := do
  let w ← get
  match f w.files w.here with
  | .ok files =>
    set { w with files := files }
    pure (.ok ())
  | .error e => pure (.error e)

/-- A step that fails with the cause if something was refused. -/
def orRefused (task : Task) (path : Path) (act : Act (Except FileError Unit)) : Act Unit := do
  match ← act with
  | .ok () => pure ()
  | .error cause => fail (.refused task path cause)

/-- The instant of this look at the clock. -/
def now : Act Instant := do
  let w ← get
  set { w with ticks := w.ticks + 1 }
  pure (w.clock w.ticks)

/-- Whether something stands at a path. -/
def isPresent (p : Path) : Act Bool :=
  look fun files here => files.isPresent here p

/-- Whether a path names a file. -/
def isFile (p : Path) : Act Bool :=
  look fun files here => files.isFile here p

/-- Whether a path names a directory. -/
def isDirectory (p : Path) : Act Bool :=
  look fun files here => files.isDirectory here p

/-- The text of a file. -/
def readText (p : Path) : Act (Except FileError String) :=
  look fun files here => files.readText here p

/-- Gives a file exactly some text. -/
def writeText (p : Path) (text : String) : Act (Except FileError Unit) :=
  change fun files here => files.write here p text.toUTF8

/-- Adds some text at the end of a file. -/
def appendText (p : Path) (text : String) : Act (Except FileError Unit) :=
  change fun files here => files.append here p text.toUTF8

/-- Makes a directory and every parent that is missing. -/
def makeDirectories (p : Path) : Act (Except FileError Unit) := do
  let w ← get
  let (files, result) := w.files.makeDirectories w.here p
  set { w with files := files }
  pure result

/-- Moves a file to another path. -/
def rename (source target : Path) : Act (Except FileError Unit) :=
  change fun files here => files.rename here source target

/-- The files that a program made, below a directory. -/
def placeFiles (directory : Path) : List (String × Option ByteArray) → FileTree → Route → FileTree
  | [], files, _ => files
  | (name, content) :: rest, files, here =>
    let path := directory.join ⟨name⟩
    let files :=
      match content with
      | none => (files.makeDirectories here path).1
      | some bytes =>
        let parents := match path.parent? with
          | some parent => (files.makeDirectories here parent).1
          | none => files
        match parents.write here path bytes with
        | .ok written => written
        | .error _ => parents
    placeFiles directory rest files here

/-- Starts a program in a directory, the working directory if none is given. -/
def start (name : String) (arguments : List String) (directory? : Option Path) :
    Act (Except FileError Reply) := do
  let w ← get
  if arguments.any fun a => a.toList.contains (Char.ofNat 0) then pure (.error .nullInArgument)
  else
    let route? : Except FileError Route := match directory? with
      | none => .ok w.here
      | some p =>
        if p.chars.contains (Char.ofNat 0) then .error .nullInArgument
        else
          match w.files.lookup w.here p with
          | .ok (route, .directory) => .ok route
          | .ok (_, .file _) => .error .notDirectory
          | .error e => .error e
    match route? with
    | .error e => pure (.error e)
    | .ok route =>
      match w.programs name with
      | .missing => pure (.error .notFound)
      | .forbidden => pure (.error .denied)
      | .present reply =>
        let r := reply arguments
        let files := match arguments.getLast? with
          | some target => placeFiles ⟨target⟩ r.made w.files route
          | none => w.files
        set { w with
          files := files
          calls := w.calls ++ [(Call.mk name (FileTree.pathOf route) arguments)] }
        pure (.ok r)

end Act

end RepoAudit
