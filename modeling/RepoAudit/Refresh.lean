import RepoAudit.Checkout.Basic
import RepoAudit.Session

/-!
# Refreshing repositories

Before a scan a repository's files are brought up to date: a remote repository is copied or its
copy refreshed, and a local checkout is refreshed. Whatever goes wrong, the scan goes on with the
files there are.
-/

namespace RepoAudit

/-- What came of a refresh. -/
inductive RefreshOutcome where
  /-- The repository was copied to a directory. -/
  | copied (directory : Path)
  /-- The checkout was refreshed. -/
  | refreshed
  /-- The repository is not under version control. -/
  | unversioned
  /-- Something went wrong. -/
  | failed (reason : String)
deriving DecidableEq, Repr

namespace RefreshOutcome

/-- An outcome in a few words. -/
def summary : RefreshOutcome → String
  | .copied directory => "cloned into " ++ directory.text
  | .refreshed => "pulled latest changes"
  | .unversioned => "not under version control, using as is"
  | .failed reason => "refresh failed: " ++ reason

end RefreshOutcome

/-- The name of the local copy of a remote repository: the last part of its address, told by slashes
and colons, without the ending `.git`. -/
def copyName (address : List Char) : List Char :=
  let trimmed := (address.reverse.dropWhile (· = '/')).reverse
  let last := (trimmed.reverse.takeWhile fun c => c ≠ '/' && c ≠ ':').reverse
  let ending := ".git".toList
  let name := if Text.endsWith last ending then last.take (last.length - ending.length) else last
  if name.isEmpty then "repo".toList else name

/-- The local copy of a remote repository, among all copies. -/
def copyPath (copies : Path) (address : String) : Path :=
  copies.entry (String.ofList (copyName address.toList))

/-- What a step that may fail comes to. -/
def RefreshOutcome.ofAct (success : RefreshOutcome) (act : Act Unit) : Act RefreshOutcome := do
  match ← Act.outcome act with
  | .ok () => pure success
  | .error f => pure (.failed f.chain)

/-- Refreshes a local repository. -/
def refreshLocal (path : Path) : Act RefreshOutcome := do
  match ← Checkout.root? path with
  | some root => RefreshOutcome.ofAct .refreshed (Checkout.pull root)
  | none => pure .unversioned

/-- Refreshes the copy of a remote repository. -/
def refreshRemote (address : String) (target : Path) : Act RefreshOutcome := do
  if ← Checkout.isAt target then RefreshOutcome.ofAct .refreshed (Checkout.pull target)
  else RefreshOutcome.ofAct (.copied target) (Checkout.copy address target)

namespace Session

/-- Brings the files of a repository up to date, and notes in its snapshot where they are. -/
def refreshFiles (session : Session) (s : Snapshot) : Act (Snapshot × RefreshOutcome) := do
  if isRemote s.repository then
    let target := copyPath session.store.copies s.repository
    let outcome ← refreshRemote s.repository target
    if ← Act.isPresent target then pure ({ s with workingCopy := some target }, outcome)
    else pure (s, outcome)
  else
    pure (s, ← refreshLocal ⟨s.repository⟩)

/-- Brings the files of a repository up to date and logs what came of it. -/
def refresh (session : Session) (s : Snapshot) : Act (Snapshot × RefreshOutcome) := do
  let s ← session.store.log ("Gathering context for " ++ s.repository) s
  let (s, outcome) ← session.refreshFiles s
  let s ← session.store.log ("Context: " ++ outcome.summary) s
  let now ← Act.now
  pure ({ s with lastRunAt := some now }, outcome)

end Session

end RepoAudit
