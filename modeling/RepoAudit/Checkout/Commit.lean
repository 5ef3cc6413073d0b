import RepoAudit.Checkout.Basic
import RepoAudit.Checkout.Message
import RepoAudit.Snapshot
import RepoAudit.Text.Match

/-!
# Committing fixes

Stages and commits the file of an issue, or everything for an issue without one. The outcome is a
value: whatever goes wrong is told in it and fails no command.
-/

namespace RepoAudit

/-- What came of a commit. -/
inductive CommitOutcome where
  /-- A commit was made. -/
  | committed
  /-- There was nothing to commit. -/
  | nothingToCommit
  /-- The repository is not under version control. -/
  | unversioned
  /-- Something went wrong. -/
  | failed (reason : String)
deriving DecidableEq, Repr

namespace CommitOutcome

/-- An outcome in a few words. -/
def summary : CommitOutcome → String
  | .committed => "committed"
  | .nothingToCommit => "nothing to commit"
  | .unversioned => "not a git repository, skipped"
  | .failed reason => "commit failed: " ++ reason

end CommitOutcome

namespace Checkout

/-- The words by which version control says that there was nothing to commit. -/
def nothingMarks : List String :=
  ["nothing to commit", "nothing added to commit", "no changes added to commit"]

/-- Whether a reply says that there was nothing to commit. -/
def saysNothing (reply : Reply) : Bool :=
  nothingMarks.any fun mark =>
    Text.contains (Text.decodeLossy reply.output).toList mark.toList ||
      Text.contains (Text.decodeLossy reply.complaint).toList mark.toList

/-- A file as named to the checkout at a root, unless it is the root itself. -/
def pathspec? (root : Path) (file : Option Path) : Option Path :=
  (file.map fun p => p.below root).filter fun p => !p.text.isEmpty

/-- The arguments that limit a command to a file. -/
def limitedTo : Option Path → List String
  | some p => ["--", p.text]
  | none => []

/-- The arguments that stage a file, or everything. -/
def addArguments (spec : Option Path) : List String :=
  "add" :: if spec.isSome then limitedTo spec else ["-A"]

/-- The arguments that commit a file, or what is staged. -/
def commitArguments (spec : Option Path) (message : CommitMessage) : List String :=
  let body := Text.trimString message.body
  ["commit", "-m", message.subject] ++ (if body.isEmpty then [] else ["-m", body]) ++ limitedTo spec

/-- Stages and commits a file, or everything; answers whether a commit was made. -/
def commit (root : Path) (file : Option Path) (message : CommitMessage) : Act Bool := do
  require root
  let spec := pathspec? root file
  requireSuccess .add (← command .add (addArguments spec) (some root))
  let reply ← command .commit (commitArguments spec message) (some root)
  if reply.succeeded then pure true
  else if saysNothing reply then pure false
  else Act.fail (.gitFailed .commit (trimmedText reply.complaint))

end Checkout

/-- Commits the file of an issue. -/
def Snapshot.commitIssue (s : Snapshot) (i : Issue) : Act CommitOutcome := do
  match ← Checkout.root? s.root with
  | none => pure .unversioned
  | some root =>
    match ← Act.outcome (Checkout.commit root i.file (CommitMessage.ofIssue i)) with
    | .ok true => pure .committed
    | .ok false => pure .nothingToCommit
    | .error f => pure (.failed f.chain)

end RepoAudit
