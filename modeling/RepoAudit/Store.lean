import RepoAudit.SnapshotJson
import RepoAudit.World

/-!
# The store

A directory with one directory per repository, named by its slug. It holds the snapshot, the log
and the diffs of the fixes. A snapshot is saved by writing a second file and moving it over the
first, so a save that is refused leaves the old snapshot as it was. A log line is kept in the
snapshot whether or not it can be added to the log file.
-/

namespace RepoAudit

/-- A directory with the snapshots of repositories. -/
structure Store where
  /-- Its path. -/
  root : Path
deriving DecidableEq, Repr

namespace Store

/-- The name of a snapshot's file. -/
def snapshotName : String := "issues.json"

/-- The name of a log's file. -/
def logName : String := "logs.txt"

/-- The directory of the repository with a slug. -/
def directory (st : Store) (slug : String) : Path :=
  st.root.entry slug

/-- The directory with the local copies of remote repositories. -/
def copies (st : Store) : Path :=
  st.root.entry "repos"

/-- The file of a repository's snapshot. -/
def snapshotPath (st : Store) (slug : String) : Path :=
  (st.directory slug).entry snapshotName

/-- The file of the diff of an issue's fix. -/
def artifactPath (st : Store) (slug id : String) : Path :=
  (st.directory slug).entry ("fix-" ++ id ++ ".diff")

/-- The snapshot in a file. -/
def readSnapshot (path : Path) : Act Snapshot := do
  match ← Act.readText path with
  | .error cause => Act.fail (.refused .readSnapshot path cause)
  | .ok text =>
    match Snapshot.read? text with
    | some s => pure s
    | none => Act.fail (.snapshotMalformed path)

/-- The snapshot of a repository; a new one if none is stored. -/
def load (st : Store) (repository : String) : Act Snapshot := do
  let path := st.snapshotPath (slugOf repository)
  if ← Act.isPresent path then readSnapshot path else pure (Snapshot.new repository)

/-- Makes the directory of a repository. -/
def makeDirectory (st : Store) (slug : String) : Act Unit :=
  Act.orRefused .makeStateDirectory (st.directory slug) (Act.makeDirectories (st.directory slug))

/-- Stores a snapshot in place of the one before. -/
def save (st : Store) (s : Snapshot) : Act Unit := do
  st.makeDirectory s.slug
  let path := st.snapshotPath s.slug
  let lockPath : Path := ⟨path.text ++ ".lock"⟩
  Act.orRefused .lockSnapshot lockPath (Act.writeText lockPath "")
  let newPath : Path := ⟨path.text ++ ".tmp"⟩
  Act.orRefused .stageSnapshot newPath (Act.writeText newPath s.write)
  Act.orRefused .replaceSnapshot path (Act.rename newPath path)

/-- Adds a line to the log file of a repository. A refusal is ignored. -/
def addToLogFile (st : Store) (slug line : String) : Act Unit := do
  match ← Act.makeDirectories (st.directory slug) with
  | .error _ => pure ()
  | .ok () =>
    let _ ← Act.appendText ((st.directory slug).entry logName) (line ++ "\n")

/-- A log line: the instant, then the message. -/
def logLine (now : Instant) (message : String) : String :=
  now.writeForLog ++ " " ++ message

/-- Logs a message in the snapshot and in the log file. -/
def log (st : Store) (message : String) (s : Snapshot) : Act Snapshot := do
  let line := logLine (← Act.now) message
  st.addToLogFile s.slug line
  pure { s with log := s.log ++ [line] }

/-- Stores the diff of an issue's fix and gives its path. -/
def writeArtifact (st : Store) (slug id : String) (diff : String) : Act Path := do
  st.makeDirectory slug
  let path := st.artifactPath slug id
  Act.orRefused .writeArtifact path (Act.writeText path diff)
  pure path

/-- The repository of the snapshot in a directory of the store, if there is one that can be read. -/
def repositoryIn? (files : FileTree) (here : Route) (directory : Path) : Option String :=
  match files.readText here (directory.entry snapshotName) with
  | .error _ => none
  | .ok text => (Snapshot.read? text).map (·.repository)

/-- The repositories with a snapshot that can be read, in order. -/
def repositories (st : Store) : Act (List String) := do
  let listing ← Act.look fun files here => files.lookup here st.root
  match listing with
  | .error _ => pure []
  | .ok (_, .file _) => Act.fail (.refused .listStore st.root .notDirectory)
  | .ok (r, .directory) =>
    Act.look fun files here =>
      ((files.children r).filterMap fun name =>
        repositoryIn? files here (st.root.entry name)).mergeSort (· ≤ ·)

end Store

end RepoAudit
