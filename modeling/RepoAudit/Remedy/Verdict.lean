/-!
# Verdicts

The outcome of checking a file against what its fix has to achieve.
-/

namespace RepoAudit

/-- The outcome of an acceptance check. -/
inductive Verdict where
  /-- The file is accepted. -/
  | passed
  /-- The file is refused, for a reason. -/
  | failed (reason : String)
deriving DecidableEq, Repr

namespace Verdict

/-- Whether the file is accepted. -/
def isPassed : Verdict → Bool
  | .passed => true
  | .failed _ => false

end Verdict

end RepoAudit
