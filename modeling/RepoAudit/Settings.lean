import RepoAudit.Advisory
import RepoAudit.Path
import RepoAudit.Text.Case

/-!
# Settings

What a configuration file can set. Every part has a default.
-/

namespace RepoAudit

/-- What a configuration file can set. -/
structure Settings where
  /-- The directory of the store, as written. -/
  storeDirectory : String
  /-- The patterns of files that a scan leaves out. -/
  excludes : List String
  /-- The repositories of a run that names none. -/
  repositories : List String
  /-- Whether external analyzers are asked at all. -/
  toolsEnabled : Bool
  /-- The analyzers that are not asked. -/
  disabledTools : List String
  /-- The known vulnerable pins. -/
  advisories : List Advisory
deriving DecidableEq, Repr

namespace Settings

/-- The store's directory when none is set. -/
def defaultStore : String := ".security-auditor"

/-- The settings without any configuration. -/
def default : Settings := ⟨defaultStore, [], [], true, [], Advisory.defaults⟩

/-- Whether an analyzer may be asked. Names are compared without regard to case. -/
def allows (s : Settings) (tool : String) : Bool :=
  s.toolsEnabled && !s.disabledTools.any fun d => Text.sameIgnoringCase d.toList tool.toList

/-- The store's directory for a working directory. -/
def storeRoot (s : Settings) (workDirectory : Path) : Path :=
  workDirectory.join ⟨s.storeDirectory⟩

end Settings

end RepoAudit
