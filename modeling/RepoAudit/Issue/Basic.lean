import RepoAudit.Context
import RepoAudit.Instant.Basic
import RepoAudit.Issue.Severity
import RepoAudit.Issue.Stage
import RepoAudit.Issue.Weakness
import RepoAudit.Path
import RepoAudit.Text.Number

/-!
# Issues and findings

A finding is a weakness seen in one scan; its file and its description identify it. An issue is a
finding that is tracked: it has an identifier, a stage, and what was planned and done about it.
Identifiers are counters written with at least three digits.
-/

namespace RepoAudit

/-- A weakness seen in a scan. -/
structure Finding where
  /-- What was seen; with the file it identifies the finding. -/
  description : String
  /-- The file it was seen in. -/
  file : Path
  /-- The line, from one. -/
  line : Option Nat
  /-- The category. -/
  weakness : Option Weakness
  /-- How urgent it is. -/
  severity : Severity
  /-- A vector of severity metrics. -/
  score : Option String
  /-- The check or tool that saw it. -/
  source : String

/-- A tracked finding. -/
structure Issue where
  /-- The identifier within its repository. -/
  id : String
  /-- The repository it belongs to, as resolved. -/
  repository : String
  /-- What was seen. -/
  description : String
  /-- The file it was seen in. -/
  file : Option Path
  /-- The line, from one. -/
  line : Option Nat
  /-- The category. -/
  weakness : Option Weakness
  /-- How urgent it is. -/
  severity : Severity
  /-- A vector of severity metrics. -/
  score : Option String
  /-- Where it stands. -/
  stage : Stage
  /-- The repository's domain when the issue was made. -/
  domain : Option Domain
  /-- The repository's ecosystems when the issue was made. -/
  ecosystems : Option (List Ecosystem)
  /-- When it was made. -/
  createdAt : Instant
  /-- When it last changed. -/
  updatedAt : Instant
  /-- What is planned against it. -/
  plan : Option String
  /-- The diff of the fix that was applied. -/
  artifact : Option Path
  /-- Why it failed. -/
  notes : Option String
deriving DecidableEq

namespace Issue

/-- The identifier of a counter. -/
def idOf (n : Nat) : String :=
  String.ofList (Text.padded 3 n)

/-- The counter that an identifier spells. -/
def number? (i : Issue) : Option Nat :=
  Text.readCounter? i.id.toList

/-- Whether a finding is the one that an issue tracks. -/
def tracks (i : Issue) (f : Finding) : Bool :=
  i.description == f.description && i.file.any fun p => p.same f.file

/-- The counter by which issues are ordered: one that spells none comes last. -/
def orderNumber (i : Issue) : Nat :=
  i.number?.getD Text.maxCounter

/-- Whether an issue stands before another, or beside it, in order of priority: by falling
severity, then by rising number, then by identifier. -/
def precedes (i j : Issue) : Bool :=
  if i.severity.rank ≠ j.severity.rank then j.severity.rank < i.severity.rank
  else if i.orderNumber ≠ j.orderNumber then i.orderNumber < j.orderNumber
  else i.id ≤ j.id

end Issue

end RepoAudit
