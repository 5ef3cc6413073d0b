import RepoAudit.Context
import RepoAudit.Profile

/-!
# External analyzers

Four analyzers can be asked for findings. Each belongs to one ecosystem and to one scan profile.
-/

namespace RepoAudit

/-- An external analyzer. -/
inductive Tool where
  | bandit
  | eslint
  | brakeman
  | pipAudit
deriving DecidableEq, Repr

namespace Tool

/-- Every analyzer, in the order in which they run. -/
def all : List Tool := [.bandit, .eslint, .brakeman, .pipAudit]

/-- The name of the analyzer's program. -/
def name : Tool → String
  | .bandit => "bandit"
  | .eslint => "eslint"
  | .brakeman => "brakeman"
  | .pipAudit => "pip-audit"

/-- The analyzer of a name. -/
def ofName? (s : String) : Option Tool :=
  all.find? fun t => t.name == s

/-- The ecosystem that the analyzer knows. -/
def ecosystem : Tool → Ecosystem
  | .bandit => .python
  | .eslint => .javaScript
  | .brakeman => .ruby
  | .pipAudit => .python

/-- The profile that the analyzer serves. -/
def profile : Tool → Profile
  | .bandit => .prompt
  | .eslint => .markup
  | .brakeman => .command
  | .pipAudit => .dependency

/-- The arguments that ask for a JSON report on the working directory. -/
def arguments : Tool → List String
  | .bandit => ["-r", ".", "-f", "json"]
  | .eslint => [".", "-f", "json"]
  | .brakeman => ["-q", "-f", "json"]
  | .pipAudit => ["-r", "requirements.txt", "-f", "json"]

end Tool

end RepoAudit
