import RepoAudit.Scan.Check
import RepoAudit.Session
import RepoAudit.Tool.Run

/-!
# Analysis of a repository

The findings of a repository under a profile: those of the built-in checks, then those of each
analyzer that is asked. What came of each analyzer is logged.
-/

namespace RepoAudit.Session

/-- The scan of a repository with the settings of a session. -/
def scanOf (session : Session) (s : Snapshot) : Scan :=
  .ofPatterns s.root session.settings.excludes
    (session.store.root.fileName?.map fun name => String.ofList name)

/-- Asks some analyzers, one after the other. -/
def askTools (session : Session) : List Tool → Snapshot → Act (Snapshot × List Finding)
  | [], s => pure (s, [])
  | t :: ts, s => do
    let outcome ← t.run s.root
    let s ← session.store.log ("Tool " ++ t.name ++ ": " ++ outcome.summary) s
    let (s, findings) ← session.askTools ts s
    pure (s, outcome.findings ++ findings)

/-- The line that tells how many findings an analysis has. -/
def analysisLine (profile : Profile) (built asked : List Finding) : String :=
  "Analysis (" ++ profile.name ++ "): " ++ toString built.length ++ " heuristic finding(s), " ++
    toString asked.length ++ " from tools"

/-- The findings of a repository under a profile. -/
def analyze (session : Session) (profile : Profile) (s : Snapshot) :
    Act (Snapshot × List Finding) := do
  let built ← Act.look
    ((session.scanOf s).findings profile session.settings.advisories)
  let tools ← Act.look
    (Tool.select profile (s.ecosystems.getD []) session.settings s.root)
  let (s, asked) ← session.askTools tools s
  let s ← session.store.log (analysisLine profile built asked) s
  pure (s, built ++ asked)

end RepoAudit.Session
