import RepoAudit.Advisory
import RepoAudit.Path
import RepoAudit.Remedy.Verdict

/-!
# Upgrading dependency pins

The advisories that concern a file are those whose manifest has its file name. Their vulnerable
pins are replaced one advisory after the other.
-/

namespace RepoAudit.Remedy.Pin

open RepoAudit.Text

/-- The advisories whose manifest has the file name of a path. -/
def advisoriesFor (path : Path) (advisories : List Advisory) : List Advisory :=
  match path.fileName? with
  | none => []
  | some name => advisories.filter fun a => (Path.mk a.manifest).fileName? == some name

/-- The text with the vulnerable pin of an advisory replaced. -/
def upgrade (content : List Char) (a : Advisory) : List Char :=
  if contains content a.vulnerable.toList then
    replaceAll a.vulnerable.toList a.fixed.toList content
  else content

/-- The text with every vulnerable pin replaced; none when nothing changes. -/
def transform (advisories : List Advisory) (content : List Char) : Option (List Char) :=
  let changed := advisories.foldl upgrade content
  if changed = content then none else some changed

/-- Whether no vulnerable pin is left and a fixed one is there. -/
def verify (advisories : List Advisory) (content : List Char) : Verdict :=
  match advisories.find? fun a => contains content a.vulnerable.toList with
  | some a => .failed (a.vulnerable ++ " is still pinned")
  | none =>
    if advisories.any fun a => contains content a.fixed.toList then .passed
    else .failed "no fixed version pinned"

end RepoAudit.Remedy.Pin
