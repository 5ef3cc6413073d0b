/-!
# Stages of an issue

An issue moves through its stages in one direction. The two final stages share the last rank, and
nothing leaves them.
-/

namespace RepoAudit

/-- Where an issue stands between detection and an end. -/
inductive Stage where
  | submitted
  | gatheringContext
  | detectingDomain
  | analyzing
  | triaging
  | planning
  | fixing
  | verifying
  | complete
  | failed
deriving DecidableEq, Repr

namespace Stage

/-- Every stage, in forward order. -/
def all : List Stage :=
  [.submitted, .gatheringContext, .detectingDomain, .analyzing, .triaging, .planning, .fixing,
    .verifying, .complete, .failed]

/-- The name shown to a reader and kept in a snapshot. -/
def name : Stage → String
  | .submitted => "Submitted"
  | .gatheringContext => "Gathering Context"
  | .detectingDomain => "Detecting Domain"
  | .analyzing => "Analyzing"
  | .triaging => "Triaging"
  | .planning => "Planning Remediation"
  | .fixing => "Fixing"
  | .verifying => "Verifying"
  | .complete => "Complete"
  | .failed => "Failed"

/-- The stage of a name. -/
def ofName? (s : String) : Option Stage :=
  all.find? fun v => v.name == s

/-- The position in the forward order. -/
def rank : Stage → Nat
  | .submitted => 0
  | .gatheringContext => 1
  | .detectingDomain => 2
  | .analyzing => 3
  | .triaging => 4
  | .planning => 5
  | .fixing => 6
  | .verifying => 7
  | .complete => 8
  | .failed => 8

/-- Whether nothing leaves the stage. -/
def isFinal : Stage → Bool
  | .complete => true
  | .failed => true
  | _ => false

/-- Whether an issue may move from one stage to another: only forward, never out of an end. -/
def canMoveTo (current next : Stage) : Bool :=
  !current.isFinal && current.rank < next.rank

end Stage

end RepoAudit
