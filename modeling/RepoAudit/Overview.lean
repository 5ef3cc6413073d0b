import RepoAudit.SnapshotJson

/-!
# Overview of tracked issues

The issues of some repositories as a table with tabs between its columns, or as a JSON array with
an entry for each repository that has an issue.
-/

namespace RepoAudit

/-- The snapshots that an overview shows, in order. -/
structure Overview where
  /-- The snapshots. -/
  snapshots : List Snapshot

namespace Overview

/-- Whether no issue is tracked. -/
def isEmpty (o : Overview) : Bool :=
  o.snapshots.all fun s => s.issues.isEmpty

/-- The titles of the columns. -/
def titles : List String := ["Issue ID", "Description", "Severity", "State", "File"]

/-- The cells of an issue's row. -/
def cells (s : Snapshot) (i : Issue) : List String :=
  [i.id, i.description, i.severity.name, i.stage.name, s.shownFile i]

/-- A row of cells as a line. -/
def line (cells : List String) : String :=
  "\t".intercalate cells

/-- What the table says when no issue is tracked. -/
def noIssues : String := "No issues."

/-- The table. -/
def table (o : Overview) : String :=
  if o.isEmpty then noIssues
  else
    "\n".intercalate <|
      line titles :: o.snapshots.flatMap fun s => s.issues.map fun i => line (cells s i)

/-- The entry of a repository. -/
def entry (s : Snapshot) : Json :=
  Json.record [("repo", Json.text s.repository), ("issues", listJson Issue.toJson s.issues)]

/-- The overview as JSON. -/
def toJson (o : Overview) : Json :=
  .array ((o.snapshots.filter fun s => !s.issues.isEmpty).map entry)

/-- The overview as JSON text. -/
def write (o : Overview) : String :=
  o.toJson.pretty

end Overview

end RepoAudit
