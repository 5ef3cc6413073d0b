import RepoAudit.Failure
import RepoAudit.Snapshot

/-!
# Tracking findings

Findings become issues. A finding that an issue tracks already only refreshes the instant of that
issue; any other becomes a new issue at the end, numbered after the largest number in use. Numbers
are bounded, and a finding that would need one beyond the bound is a fault.
-/

namespace RepoAudit

/-- How many findings became issues and how many were tracked already. -/
structure Tally where
  /-- The findings that became issues. -/
  created : Nat
  /-- The findings that were tracked already. -/
  refreshed : Nat
deriving DecidableEq, Repr

namespace Tally

/-- The tally of no findings. -/
def zero : Tally := ⟨0, 0⟩

/-- The tally with one more finding, which became an issue. -/
def withCreated (t : Tally) : Tally :=
  { t with created := t.created + 1 }

/-- The tally with one more finding, which was tracked already. -/
def withRefreshed (t : Tally) : Tally :=
  { t with refreshed := t.refreshed + 1 }

end Tally

namespace Issue

/-- The issue with the instant of its last change set. -/
def touch (now : Instant) (i : Issue) : Issue :=
  { i with updatedAt := now }

/-- The new issue of a finding in a repository. -/
def ofFinding (s : Snapshot) (number : Nat) (now : Instant) (f : Finding) : Issue where
  id := idOf number
  repository := s.repository
  description := f.description
  file := some f.file
  line := f.line
  weakness := f.weakness
  severity := f.severity
  score := f.score
  stage := .submitted
  domain := s.domain
  ecosystems := s.ecosystems
  createdAt := now
  updatedAt := now
  plan := none
  artifact := none
  notes := none

end Issue

namespace Snapshot

/-- The largest number of an issue; zero if none has a number. -/
def largestNumber (s : Snapshot) : Nat :=
  (s.issues.filterMap Issue.number?).foldl max 0

/-- Tracks one finding that is seen at an instant. -/
def track (now : Instant) (f : Finding) (s : Snapshot) (t : Tally) :
    Except Failure (Snapshot × Tally) :=
  match s.issues.findIdx? fun i => i.tracks f with
  | some index => .ok (s.modifyIssue index (Issue.touch now), t.withRefreshed)
  | none =>
    let number := s.largestNumber + 1
    if number ≤ Text.maxCounter then
      .ok ({ s with issues := s.issues ++ [Issue.ofFinding s number now f] }, t.withCreated)
    else .error .countersExhausted

/-- Tracks some findings, each seen at its instant. -/
def trackAll : List (Instant × Finding) → Snapshot → Tally → Except Failure (Snapshot × Tally)
  | [], s, t => .ok (s, t)
  | (now, f) :: rest, s, t =>
    match track now f s t with
    | .ok (s, t) => trackAll rest s t
    | .error e => .error e

/-- Tracks some findings and counts what became of them. -/
def ingest (findings : List (Instant × Finding)) (s : Snapshot) :
    Except Failure (Snapshot × Tally) :=
  trackAll findings s .zero

/-- The snapshot with the context of its repository recorded. -/
def withContext (domain : Domain) (ecosystems : List Ecosystem) (s : Snapshot) : Snapshot :=
  { s with domain := some domain, ecosystems := some ecosystems }

end Snapshot

end RepoAudit
