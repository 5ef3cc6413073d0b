import RepoAudit.Audit
import RepoAudit.CommandLine.Reader
import RepoAudit.CommandLine.Template

/-!
# Carrying out a command line

A command line is carried out in a world. It prints something, complains about something, and ends
with a code: zero for success, one for a failure, two for a command line that is not well formed,
and one hundred and one for a fault.
-/

namespace RepoAudit.CommandLine

/-- What a command line came to. -/
structure Ending where
  /-- The code it ended with. -/
  code : Nat
  /-- What it printed. -/
  output : String
  /-- What it complained with. -/
  complaint : String
deriving DecidableEq, Repr

/-- What a command prints and what it tells besides. -/
structure Printed where
  /-- What it prints. -/
  output : String
  /-- What it tells besides. -/
  remark : String

/-- A command that prints one line. -/
def Printed.line (text : String) : Printed := ⟨text ++ "\n", ""⟩

/-- Makes the directory of a configuration file unless it is there. -/
def makeParent (config : Path) : Act Unit := do
  match config.parent? with
  | none => pure ()
  | some parent =>
    if parent.text.isEmpty || (← Act.isPresent parent) then pure ()
    else Act.orRefused .makeConfigDirectory parent (Act.makeDirectories parent)

/-- Writes the default configuration, over another one only on request. -/
def writeConfiguration (workDirectory : Path) (config? : Option Path) (force : Bool) :
    Act Printed := do
  let config := config?.getD (workDirectory.entry "security-auditor.toml")
  if (← Act.isPresent config) && !force then Act.fail (.configExists config)
  else
    makeParent config
    Act.orRefused .writeConfig config (Act.writeText config defaultConfiguration)
    pure (.line ("Created: " ++ config.text))

/-- The remark of a scan. -/
def scanRemark (s : Snapshot) (report : ScanReport) : String :=
  "Scanned " ++ s.repository ++ " with profile " ++ report.profile.name ++ " (" ++
    report.refresh.summary ++ "): " ++ toString report.tally.created ++ " new, " ++
    toString report.tally.refreshed ++ " already tracked\n"

/-- Carries out what is asked for in a session. A configuration needs no session and is written
elsewhere. -/
def perform (session : Session) : Request → Act Printed
  | .scan repository profile => do
    let (s, report) ← session.scan repository profile
    pure ⟨(Overview.mk [s]).table ++ "\n", scanRemark s report⟩
  | .fix id repository => do
    match ← session.fix repository id with
    | .applied artifact =>
      pure (.line ("Issue " ++ id ++ ": fix applied (" ++ artifact.text ++ ")"))
    | .notApplicable reason => Act.fail (.fixNotApplied id reason)
  | .verify id repository => do
    match ← session.verify repository id with
    | .passed => pure (.line ("Issue " ++ id ++ ": verified"))
    | .failed reason => Act.fail (.notVerified id reason)
  | .commit id repository => do
    let outcome ← session.commit repository id
    pure (.line ("Issue " ++ id ++ ": " ++ outcome.summary))
  | .status repository json => do
    let overview ← session.overview repository
    pure (.line (if json then overview.write else overview.table))
  | .run repositories profile => do
    match chooseRepositories repositories session.settings.repositories with
    | .error f => Act.fail f
    | .ok chosen => pure (.line (Overview.mk (← session.run chosen profile)).table)
  | .init _ => pure ⟨"", ""⟩

/-- The session of a command line. -/
def Invocation.session (workDirectory : Path) (i : Invocation) : Act Session := do
  let session ← Session.start workDirectory i.config
  match i.store with
  | some root => pure (session.withStore root)
  | none => pure session

/-- Carries out a command line that was understood. -/
def Invocation.perform (workDirectory : Path) (i : Invocation) : Act Printed := do
  match i.request with
  | .init force => writeConfiguration workDirectory i.config force
  | request => CommandLine.perform (← i.session workDirectory) request

/-- The repositories that a request names. -/
def namedRepositories (settings : Settings) : Request → List String
  | .scan repository _ => [repository]
  | .fix _ repository => [repository]
  | .verify _ repository => [repository]
  | .commit _ repository => [repository]
  | .status repository _ => repository.toList
  | .run repositories _ =>
    match chooseRepositories repositories settings.repositories with
    | .ok chosen => chosen
    | .error _ => []
  | .init _ => []

/-- Where the files lie that a command line works on, besides its configuration: the store and the
local repositories that it names. -/
def Invocation.places (workDirectory : Path) (i : Invocation) : Act (List Path) := do
  let session ← i.session workDirectory
  let named := (namedRepositories session.settings i.request).filter fun r => !isRemote r
  pure (session.store.root :: named.map fun r => ⟨session.resolve r⟩)

/-- Some causes, numbered when there are several. -/
def listCauses : List String → String
  | [] => ""
  | [cause] => "\n\nCaused by:\n    " ++ cause
  | causes =>
    "\n\nCaused by:\n" ++
      "\n".intercalate (causes.mapIdx fun i cause => "    " ++ toString i ++ ": " ++ cause)

/-- What is said about a failure. -/
def failureText (f : Failure) : String :=
  "Error: " ++ f.message ++ listCauses f.causes ++ "\n"

/-- How a failed command ends. -/
def Ending.ofFailure (f : Failure) : Ending :=
  if f.isFault then ⟨101, "", f.message ++ "\n"⟩ else ⟨1, "", failureText f⟩

/-- How a command line ends that asks for nothing. -/
def Ending.ofStop : Stop → Ending
  | .misused => ⟨2, "", usage⟩
  | .help => ⟨0, usage, ""⟩
  | .version => ⟨0, versionLine, ""⟩

/-- Carries out a command line, given the list of repositories in the environment. -/
def carryOut (workDirectory : Path) (repoList : Option String) (arguments : List String) :
    StateM World Ending := fun w =>
  match read repoList arguments with
  | .error stop => (.ofStop stop, w)
  | .ok invocation =>
    match invocation.perform workDirectory w with
    | (.ok printed, w') => (⟨0, printed.output, printed.remark⟩, w')
    | (.error f, w') => (.ofFailure f, w')

end RepoAudit.CommandLine
