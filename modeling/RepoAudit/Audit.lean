import RepoAudit.Analysis
import RepoAudit.Lifecycle
import RepoAudit.Overview
import RepoAudit.Refresh
import RepoAudit.Scan.Surroundings

/-!
# Commands on repositories

Each command loads the snapshot of a repository, takes its steps and saves the snapshot at the end.
A command that fails on the way saves nothing.
-/

namespace RepoAudit

/-- What a scan did. -/
structure ScanReport where
  /-- The profile that was used. -/
  profile : Profile
  /-- What came of the refresh. -/
  refresh : RefreshOutcome
  /-- What became of the findings. -/
  tally : Tally

namespace Session

/-- The line that tells the context of a repository. -/
def contextLine (domain : Domain) (ecosystems : List Ecosystem) : String :=
  "Detected domain " ++ domain.name ++ " and tech stack [" ++
    ", ".intercalate (ecosystems.map Ecosystem.name) ++ "]"

/-- Detects and records the context of a repository. -/
def recordContext (session : Session) (s : Snapshot) : Act Snapshot := do
  let domain ← Act.look (Domain.detect s.root)
  let ecosystems ← Act.look (Ecosystem.detect s.root)
  pure ((← session.store.log (contextLine domain ecosystems) s).withContext domain ecosystems)

/-- Gives each finding the instant at which it is tracked. -/
def stamp : List Finding → Act (List (Instant × Finding))
  | [] => pure []
  | f :: fs => do
    let now ← Act.now
    pure ((now, f) :: (← stamp fs))

/-- Tracks some findings and puts the issues in order. -/
def trackFindings (findings : List Finding) (s : Snapshot) : Act (Snapshot × Tally) := do
  match s.ingest (← stamp findings) with
  | .ok (s, tally) => pure (s.prioritize, tally)
  | .error f => Act.fail f

/-- The line that tells what a scan did. -/
def scanLine (profile : Profile) (tally : Tally) : String :=
  "Scan (" ++ profile.name ++ "): " ++ toString tally.created ++ " new issue(s), " ++
    toString tally.refreshed ++ " already tracked"

/-- Scans a repository: refreshes it, records its context, analyzes it, tracks the findings, and
triages and plans the issues. -/
def scanSnapshot (session : Session) (profile? : Option Profile) (s : Snapshot) :
    Act (Snapshot × ScanReport) := do
  let (s, refresh) ← session.refresh s
  let s ← session.recordContext s
  let profile := profile?.getD (Profile.nextAfter s.lastProfile)
  let s := { s with lastProfile := some profile }
  let (s, findings) ← session.analyze profile s
  let (s, tally) ← trackFindings findings s
  let s ← session.store.log (scanLine profile tally) s
  let (s, _) ← session.triageAll s
  let (s, _) ← session.planAll s
  pure (s, ⟨profile, refresh, tally⟩)

/-- Takes a step on the snapshot of a repository and saves it. -/
def onSnapshot {α : Type} (session : Session) (repository : String)
    (step : Snapshot → Act (Snapshot × α)) : Act (Snapshot × α) := do
  let (s, result) ← step (← session.loadSnapshot repository)
  session.store.save s
  pure (s, result)

/-- Scans a repository without repairing anything. -/
def scan (session : Session) (repository : String) (profile? : Option Profile) :
    Act (Snapshot × ScanReport) :=
  session.onSnapshot repository (session.scanSnapshot profile?)

/-- The line that tells what a run did. -/
def runLine (report : ScanReport) (fixed verified : Nat) : String :=
  "Run (" ++ report.profile.name ++ "): " ++ toString report.tally.created ++ " new, " ++
    toString fixed ++ " fixed, " ++ toString verified ++ " verified"

/-- Scans one repository and repairs, checks and commits its issues. -/
def runOne (session : Session) (profile? : Option Profile) (repository : String) :
    Act Snapshot := do
  let resolved := session.resolve repository
  let s ← session.store.load resolved
  let (s, report) ← session.scanSnapshot profile? s
  let (s, fixed) ← session.fixAll s
  let (s, verified) ← session.verifyAll s
  let s ← session.store.log (runLine report fixed verified) s
  Act.mapFailure (.notSaved resolved) (session.store.save s)
  pure s

/-- Runs over some repositories in turn. -/
def runEach (session : Session) (profile? : Option Profile) : List String → Act (List Snapshot)
  | [] => pure []
  | r :: rs => do
    let s ← session.runOne profile? r
    pure (s :: (← session.runEach profile? rs))

/-- Runs over at least one repository. -/
def run (session : Session) (repositories : List String) (profile? : Option Profile) :
    Act (List Snapshot) :=
  if repositories.isEmpty then Act.fail .noRepositories
  else session.runEach profile? repositories

/-- Repairs one issue. -/
def fix (session : Session) (repository id : String) : Act FixOutcome := do
  pure (← session.onSnapshot repository (session.fixIssue id)).2

/-- Checks one issue, and commits it if it passes. -/
def verify (session : Session) (repository id : String) : Act Verdict := do
  let step (s : Snapshot) : Act (Snapshot × Verdict) := do
    let (s, verdict) ← session.verifyIssue id s
    if verdict.isPassed then pure ((← session.commitIssue id s).1, verdict) else pure (s, verdict)
  pure (← session.onSnapshot repository step).2

/-- Commits one issue. -/
def commit (session : Session) (repository id : String) : Act CommitOutcome := do
  pure (← session.onSnapshot repository (session.commitIssue id)).2

/-- Loads the snapshots of some repositories. -/
def loadEach (session : Session) : List String → Act (List Snapshot)
  | [] => pure []
  | r :: rs => do
    let s ← session.store.load r
    pure (s :: (← session.loadEach rs))

/-- The overview of one repository, or of every one in the store. -/
def overview (session : Session) (repository? : Option String) : Act Overview := do
  match repository? with
  | some r => pure ⟨← session.loadEach [session.resolve r]⟩
  | none => pure ⟨← session.loadEach (← session.store.repositories)⟩

end Session

end RepoAudit
