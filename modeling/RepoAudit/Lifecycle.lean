import RepoAudit.Checkout.Commit
import RepoAudit.Repair
import RepoAudit.Session
import RepoAudit.Tracking

/-!
# Lifecycle of issues

How issues move through their stages: passes over all issues of a repository, and steps on a single
one. Every move goes through `advance`, which only lets an issue move forward and logs the move.
Issues are addressed by their place in the snapshot, and no step changes the places.
-/

namespace RepoAudit.Session

/-- The line that tells of a move. -/
def moveLine (id : String) (current next : Stage) : String :=
  "Issue " ++ id ++ ": " ++ current.name ++ " -> " ++ next.name

/-- Moves the issue at a place to a stage. A place without an issue is passed over. -/
def advance (session : Session) (index : Nat) (next : Stage) (s : Snapshot) : Act Snapshot := do
  match s.issues[index]? with
  | none => pure s
  | some i =>
    if i.stage.canMoveTo next then
      let now ← Act.now
      session.store.log (moveLine i.id i.stage next)
        (s.modifyIssue index fun i => { i with stage := next }.touch now)
    else Act.fail (.cannotMove i.id i.stage next)

/-- The places of the issues at a stage. -/
def placesAt (stage : Stage) (s : Snapshot) : List Nat :=
  (List.range s.issues.length).filter fun index =>
    match s.issues[index]? with
    | some i => i.stage == stage
    | none => false

/-- The place of the issue with an identifier. -/
def place (id : String) (s : Snapshot) : Act Nat :=
  match s.indexOf? id with
  | some index => pure index
  | none => Act.fail (.issueNotFound id s.repository)

/-- Takes a step for each of some places and counts those that say so. -/
def countSteps (step : Nat → Snapshot → Act (Snapshot × Bool)) :
    List Nat → Snapshot → Act (Snapshot × Nat)
  | [], s => pure (s, 0)
  | index :: rest, s => do
    let (s, counts) ← step index s
    let (s, n) ← countSteps step rest s
    pure (s, if counts then n + 1 else n)

/-- Moves every submitted issue to triage, and counts them. -/
def triageAll (session : Session) (s : Snapshot) : Act (Snapshot × Nat) :=
  countSteps (fun index s => do pure (← session.advance index .triaging s, true))
    (placesAt .submitted s) s

/-- Plans the remedy of the issue at a place. -/
def planAt (session : Session) (index : Nat) (s : Snapshot) : Act Snapshot :=
  session.advance index .planning
    (s.modifyIssue index fun i => { i with plan := some (Remedy.planFor i.weakness) })

/-- Plans the remedy of every triaged issue, and counts them. -/
def planAll (session : Session) (s : Snapshot) : Act (Snapshot × Nat) :=
  countSteps (fun index s => do pure (← session.planAt index s, true)) (placesAt .triaging s) s

/-- Ends the issue at a place as failed, with the reason in its notes and a line in the log. -/
def giveUp (session : Session) (index : Nat) (line reason : String) (s : Snapshot) : Act Snapshot :=
  do
    let s := s.modifyIssue index fun i => { i with notes := some reason }
    session.advance index .failed (← session.store.log line s)

/-- The snapshot with the issue at a place moved to a stage, unless it is there. -/
def advanceUnlessAt (session : Session) (index : Nat) (next : Stage) (s : Snapshot) :
    Act Snapshot :=
  match s.issues[index]? with
  | some i => if i.stage = next then pure s else session.advance index next s
  | none => pure s

/-- Applies the remedy of the issue at a place. -/
def fixAt (session : Session) (index : Nat) (s : Snapshot) : Act (Snapshot × FixOutcome) := do
  let s ← session.advanceUnlessAt index .fixing s
  match s.issues[index]? with
  | none => pure (s, .notApplicable "")
  | some i =>
    let outcome ← i.repair session.store session.settings.advisories s
    match outcome with
    | .applied artifact =>
      let s := s.modifyIssue index fun i => { i with artifact := some artifact, notes := none }
      let line := "Issue " ++ i.id ++ ": fix applied, diff at " ++ artifact.text
      pure (← session.advance index .verifying (← session.store.log line s), outcome)
    | .notApplicable reason =>
      let line := "Issue " ++ i.id ++ ": fix not applied: " ++ reason
      pure (← session.giveUp index line reason s, outcome)

/-- Whether a remedy was applied. -/
def wasApplied : FixOutcome → Bool
  | .applied _ => true
  | .notApplicable _ => false

/-- Applies the remedy of every planned issue, in order of priority, and counts those applied. -/
def fixAll (session : Session) (s : Snapshot) : Act (Snapshot × Nat) :=
  countSteps
    (fun index s => do
      let (s, outcome) ← session.fixAt index s
      pure (s, wasApplied outcome))
    (placesAt .planning s) s

/-- Checks the issue at a place. -/
def verifyAt (session : Session) (index : Nat) (s : Snapshot) : Act (Snapshot × Verdict) := do
  let s ← session.advanceUnlessAt index .verifying s
  match s.issues[index]? with
  | none => pure (s, .failed "")
  | some i =>
    let verdict ← i.check session.settings.advisories
    match verdict with
    | .passed => pure (← session.advance index .complete s, verdict)
    | .failed reason =>
      let line := "Issue " ++ i.id ++ ": verification failed: " ++ reason
      pure (← session.giveUp index line reason s, verdict)

/-- Commits the file of the issue at a place and logs what came of it. -/
def commitAt (session : Session) (index : Nat) (s : Snapshot) : Act (Snapshot × CommitOutcome) := do
  match s.issues[index]? with
  | none => pure (s, .unversioned)
  | some i =>
    let outcome ← s.commitIssue i
    pure (← session.store.log ("Issue " ++ i.id ++ ": " ++ outcome.summary) s, outcome)

/-- Checks every repaired issue, commits those that pass, and counts them. -/
def verifyAll (session : Session) (s : Snapshot) : Act (Snapshot × Nat) :=
  countSteps
    (fun index s => do
      let (s, verdict) ← session.verifyAt index s
      if verdict.isPassed then pure ((← session.commitAt index s).1, true) else pure (s, false))
    (placesAt .verifying s) s

/-- Repairs one issue, which is planned first if it was not. An issue that waits for its check or
has ended is not repaired. -/
def fixIssue (session : Session) (id : String) (s : Snapshot) : Act (Snapshot × FixOutcome) := do
  let index ← place id s
  match s.issues[index]? with
  | none => pure (s, .notApplicable "")
  | some i =>
    if i.stage.isFinal || Stage.verifying.rank ≤ i.stage.rank then
      Act.fail (.cannotMove id i.stage .fixing)
    else if i.stage.rank < Stage.planning.rank then
      session.fixAt index (← session.planAt index s)
    else session.fixAt index s

/-- Checks one issue that has not ended. -/
def verifyIssue (session : Session) (id : String) (s : Snapshot) : Act (Snapshot × Verdict) := do
  let index ← place id s
  match s.issues[index]? with
  | none => pure (s, .failed "")
  | some i =>
    if i.stage.isFinal then Act.fail (.cannotMove id i.stage .verifying)
    else session.verifyAt index s

/-- Commits the file of one issue, whatever its stage. -/
def commitIssue (session : Session) (id : String) (s : Snapshot) :
    Act (Snapshot × CommitOutcome) := do
  session.commitAt (← place id s) s

end RepoAudit.Session
