import RepoAudit.Issue.Basic
import RepoAudit.Text.Lines

/-!
# Commit messages

The message that goes with the fix of an issue: a subject of one line and bounded length, and a
body of paragraphs, the last of which names the issue.
-/

namespace RepoAudit

open RepoAudit.Text

/-- The message of a commit. -/
structure CommitMessage where
  /-- The subject, one line. -/
  subject : String
  /-- The body. -/
  body : String
deriving DecidableEq, Repr

namespace CommitMessage

/-- The largest number of characters in a subject. -/
def maxSubjectLength : Nat := 72

/-- A text as the subject of a commit: its first line without the blanks at its ends, without
carriage returns, and cut at the bound. -/
def subjectOf (text : List Char) : List Char :=
  ((trim ((rows text).headD [])).filter (· ≠ '\r')).take maxSubjectLength

/-- The paragraphs of the body: the weakness if it is known, the plan unless it is blank, and the
identifier. -/
def paragraphs (i : Issue) : List String :=
  let weakness := i.weakness.map fun w =>
    "Addresses " ++ w.tag ++ " (" ++ i.severity.name ++ " severity)."
  let plan := (i.plan.map trimString).filter fun p => !p.isEmpty
  weakness.toList ++ plan.toList ++ ["Security-Auditor-Issue: #" ++ i.id]

/-- The message for the fix of an issue. -/
def ofIssue (i : Issue) : CommitMessage where
  subject := String.ofList (subjectOf ("Fix " ++ i.id ++ ": " ++ i.description).toList)
  body := "\n\n".intercalate (paragraphs i)

end CommitMessage

end RepoAudit
