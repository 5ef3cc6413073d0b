import RepoAudit.SettingsToml
import RepoAudit.Store

/-!
# Sessions

What every command works with: the working directory, the settings and the store. A repository is
named by a remote address, which is kept as it is, or by a local path, which is made absolute and
folded, so that every spelling of one path names one repository.
-/

namespace RepoAudit

namespace Settings

/-- The files in which a configuration is looked for, in order. -/
def candidates (workDirectory home : Path) : List Path :=
  [(workDirectory.entry ".security-auditor").entry "config.toml",
    workDirectory.entry "security-auditor.toml",
    (home.entry ".security-auditor").entry "config.toml"]

/-- The settings in a file. -/
def readFile (path : Path) : Act Settings := do
  match ← Act.readText path with
  | .error cause => Act.fail (.refused .readConfig path cause)
  | .ok text =>
    match read? text with
    | some settings => pure settings
    | none => Act.fail (.configMalformed path)

/-- The first of some paths that names a file. -/
def firstFile? : List Path → Act (Option Path)
  | [] => pure none
  | p :: ps => do if ← Act.isFile p then pure (some p) else firstFile? ps

/-- The settings for a working directory: from the given file, or else from the first candidate
that there is, or else the default ones. -/
def load (workDirectory : Path) (given : Option Path) : Act Settings := do
  match given with
  | some path => readFile path
  | none =>
    match ← firstFile? (candidates workDirectory (← get).home) with
    | some path => readFile path
    | none => pure default

end Settings

/-- Whether a repository is named by a remote address. -/
def isRemote (repository : String) : Bool :=
  ["git@", "http://", "https://", "ssh://"].any fun lead =>
    Text.startsWith repository.toList lead.toList

/-- What every command works with. -/
structure Session where
  /-- The working directory. -/
  workDirectory : Path
  /-- The settings. -/
  settings : Settings
  /-- The store. -/
  store : Store

namespace Session

/-- The session of a working directory with some settings. -/
def new (workDirectory : Path) (settings : Settings) : Session :=
  ⟨workDirectory, settings, ⟨settings.storeRoot workDirectory⟩⟩

/-- The session of a working directory, with its configuration. -/
def start (workDirectory : Path) (config : Option Path) : Act Session := do
  pure (new workDirectory (← Settings.load workDirectory config))

/-- The session with its store elsewhere. -/
def withStore (root : Path) (s : Session) : Session :=
  { s with store := ⟨s.workDirectory.join root⟩ }

/-- The repository that an argument names. -/
def resolve (s : Session) (repository : String) : String :=
  if isRemote repository then repository
  else (s.workDirectory.join ⟨repository⟩).normalize.text

/-- The snapshot of the repository that an argument names. -/
def loadSnapshot (s : Session) (repository : String) : Act Snapshot :=
  s.store.load (s.resolve repository)

end Session

/-- The parts of a list that may hold several repositories, separated by commas. -/
def listedRepositories (list : String) : List String :=
  ((Text.splitOn ',' list.toList).map Text.trim).filterMap fun r =>
    if r.isEmpty then none else some (String.ofList r)

/-- The repositories of a run: those listed, or else those in the settings. -/
def chooseRepositories (list : Option String) (configured : List String) :
    Except Failure (List String) :=
  let chosen := match list with
    | some l => listedRepositories l
    | none => configured
  if chosen.isEmpty then .error .noRepositories else .ok chosen

end RepoAudit
