import RepoAudit.FileTree
import RepoAudit.Issue.Stage
import RepoAudit.Tool.Basic

/-!
# Failures

Why a command can fail. `message` is what a reader is told first; `chain` goes on to the cause.
-/

namespace RepoAudit

/-- What was being done when the operating system refused. -/
inductive Task where
  | readConfig
  | readSnapshot
  | makeStateDirectory
  | lockSnapshot
  | stageSnapshot
  | replaceSnapshot
  | writeArtifact
  | listStore
  | makeCloneDirectory
  | makeConfigDirectory
  | writeConfig
deriving DecidableEq, Repr

/-- What a task was to do with a path. -/
def Task.message (path : Path) : Task → String
  | .readConfig => "Failed to read config file: " ++ path.text
  | .readSnapshot => "Failed to read snapshot: " ++ path.text
  | .makeStateDirectory => "Failed to create state directory: " ++ path.text
  | .lockSnapshot => "Failed to create lock file: " ++ path.text
  | .stageSnapshot => "Failed to create temp file: " ++ path.text
  | .replaceSnapshot => "Failed to replace snapshot: " ++ path.text
  | .writeArtifact => "Failed to write fix artifact: " ++ path.text
  | .listStore => "Failed to list store: " ++ path.text
  | .makeCloneDirectory => "Failed to create clone directory: " ++ path.text
  | .makeConfigDirectory => "Failed to create " ++ path.text
  | .writeConfig => "Failed to write " ++ path.text

/-- A version control command. -/
inductive GitCommand where
  | clone
  | pull
  | add
  | commit
deriving DecidableEq, Repr

namespace GitCommand

/-- The command's name. -/
def name : GitCommand → String
  | .clone => "clone"
  | .pull => "pull"
  | .add => "add"
  | .commit => "commit"

/-- What is said when the command cannot be started. -/
def startMessage : GitCommand → String
  | .clone => "Failed to run git clone"
  | .pull => "Failed to run git pull"
  | .add => "Failed to stage changes"
  | .commit => "Failed to commit changes"

end GitCommand

/-- Why a command failed. -/
inductive Failure where
  /-- A repository has no issue with an identifier. -/
  | issueNotFound (id repository : String)
  /-- No repository was named. -/
  | noRepositories
  /-- An issue cannot move between two stages. -/
  | cannotMove (id : String) (current next : Stage)
  /-- A configuration file is malformed. -/
  | configMalformed (path : Path)
  /-- The operating system refused. -/
  | refused (task : Task) (path : Path) (cause : FileError)
  /-- A stored snapshot is malformed. -/
  | snapshotMalformed (path : Path)
  /-- The snapshot of a repository could not be saved after a run. -/
  | notSaved (repository : String) (cause : Failure)
  /-- Version control could not be started. -/
  | gitNotStarted (command : GitCommand) (cause : FileError)
  /-- Version control reported a failure. -/
  | gitFailed (command : GitCommand) (complaint : String)
  /-- A directory is no checkout. -/
  | notCheckout (path : Path)
  /-- An analyzer's report is malformed. -/
  | reportMalformed (tool : Tool)
  /-- There is a configuration already. -/
  | configExists (path : Path)
  /-- A fix was not applied. -/
  | fixNotApplied (id reason : String)
  /-- A verification failed. -/
  | notVerified (id reason : String)
  /-- There is no counter left for another issue. -/
  | countersExhausted
  /-- A change would have cut inside a character or beyond the end. -/
  | misplacedCut
deriving DecidableEq, Repr

namespace Failure

/-- What a reader is told first. -/
def message : Failure → String
  | .issueNotFound id repository => "Issue " ++ id ++ " not found in " ++ repository
  | .noRepositories =>
    "No repositories specified. Use --repos, REPO_LIST or settings.repos."
  | .cannotMove id current next =>
    "Issue " ++ id ++ " cannot move from " ++ current.name ++ " to " ++ next.name
  | .configMalformed path => "Failed to parse config file " ++ path.text
  | .refused task path _ => task.message path
  | .snapshotMalformed path => "Failed to parse snapshot: " ++ path.text
  | .notSaved repository _ => "Failed to save state for " ++ repository
  | .gitNotStarted command _ => command.startMessage
  | .gitFailed command complaint => "git " ++ command.name ++ " failed: " ++ complaint
  | .notCheckout path => "Not a git repository: " ++ path.text
  | .reportMalformed tool =>
    "Failed to parse " ++ tool.name ++ " JSON"
  | .configExists path =>
    "Configuration already exists: " ++ path.text ++ "\nUse --force to overwrite."
  | .fixNotApplied id reason => "Issue " ++ id ++ ": fix not applied: " ++ reason
  | .notVerified id reason => "Issue " ++ id ++ ": verification failed: " ++ reason
  | .countersExhausted => "attempt to add with overflow"
  | .misplacedCut => "cut outside the text"

/-- What a reader is told, down to the first cause. -/
def chain : Failure → String
  | .refused task path cause => task.message path ++ ": " ++ cause.message
  | .gitNotStarted command cause => command.startMessage ++ ": " ++ cause.message
  | .notSaved repository cause => "Failed to save state for " ++ repository ++ ": " ++ cause.chain
  | f => f.message

/-- The causes of a failure, the nearest first. -/
def causes : Failure → List String
  | .refused _ _ cause => [cause.message]
  | .gitNotStarted _ cause => [cause.message]
  | .notSaved _ cause => cause.message :: cause.causes
  | _ => []

/-- Whether the failure is a fault of the library and not of its input. -/
def isFault : Failure → Bool
  | .countersExhausted => true
  | .misplacedCut => true
  | _ => false

end Failure

end RepoAudit
