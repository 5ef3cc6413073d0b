/-!
# Severity

How urgent an issue is. The rank orders severities; a higher rank is more urgent.
-/

namespace RepoAudit

/-- How urgent an issue is. -/
inductive Severity where
  | critical
  | high
  | medium
  | low
deriving DecidableEq, Repr

namespace Severity

/-- Every severity, most urgent first. -/
def all : List Severity := [.critical, .high, .medium, .low]

/-- The name shown to a reader and kept in a snapshot. -/
def name : Severity → String
  | .critical => "Critical"
  | .high => "High"
  | .medium => "Medium"
  | .low => "Low"

/-- The severity of a name. -/
def ofName? (s : String) : Option Severity :=
  all.find? fun v => v.name == s

/-- The weight in an ordering; higher is more urgent. -/
def rank : Severity → Nat
  | .critical => 4
  | .high => 3
  | .medium => 2
  | .low => 1

end Severity

end RepoAudit
