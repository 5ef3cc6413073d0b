import RepoAudit.Context
import RepoAudit.FileTree
import RepoAudit.Text.Case

/-!
# Surroundings of a repository

The business domain and the ecosystems of a repository, from the documents and the manifests at its
root.
-/

namespace RepoAudit

/-- The documents that may tell a repository's domain. -/
def documents : List String := ["README.md", "README", "README.txt", "docs/README.md"]

/-- The domain that the documents of a repository suggest together. -/
def Domain.detect (root : Path) (files : FileTree) (here : Route) : Domain :=
  let texts := documents.filterMap fun name =>
    match files.readText here (root.entry name) with
    | .ok text => some text.toList
    | .error _ => none
  classify (Text.lowerKeywords (['\n'].intercalate texts))

/-- The ecosystems whose manifests stand at the root of a repository. -/
def Ecosystem.detect (root : Path) (files : FileTree) (here : Route) : List Ecosystem :=
  all.filter fun e => e.manifests.any fun name => files.isFile here (root.entry name)

end RepoAudit
