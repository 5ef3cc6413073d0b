import RepoAudit.Text.Match

/-!
# Advisories

An advisory names a dependency pin that is known to be vulnerable and the pin that replaces it.
-/

namespace RepoAudit

/-- A vulnerable dependency pin and its replacement. -/
structure Advisory where
  /-- The manifest that may hold the pin, relative to the root of a repository. -/
  manifest : String
  /-- The vulnerable pin, as written. -/
  vulnerable : String
  /-- The pin that replaces it. -/
  fixed : String
  /-- What is wrong with the pin. -/
  description : String
deriving DecidableEq, Repr

namespace Advisory

/-- The manifest of an advisory that names none. -/
def defaultManifest : String := "requirements.txt"

/-- The description of an advisory that gives none. -/
def defaultDescription : String := "Outdated dependency missing auth checks"

/-- The advisories of a configuration that lists none. -/
def defaults : List Advisory :=
  [⟨defaultManifest, "shopify-sdk==1.2.3", "shopify-sdk==2.0.1", defaultDescription⟩]

/-- What a finding of the pin says. The pin is part of it, so that two advisories on one manifest
make two findings. -/
def findingDescription (a : Advisory) : String :=
  a.description ++ " (" ++ a.vulnerable ++ ")"

end Advisory

end RepoAudit
