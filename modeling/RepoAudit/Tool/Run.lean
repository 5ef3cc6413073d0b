import RepoAudit.Settings
import RepoAudit.Text.Lines
import RepoAudit.Text.Utf8
import RepoAudit.Tool.Report
import RepoAudit.World

/-!
# Running analyzers

An analyzer is asked when its profile is covered, its ecosystem is there, the settings allow it, and
its input is there. What comes of it tells an analyzer that is not installed, one that failed, one
whose report is not understood, and one that reported. An exit code other than zero is no failure
as long as there is a report, since an analyzer that finds something may end with one.
-/

namespace RepoAudit.Tool

/-- What came of asking an analyzer. -/
inductive Outcome where
  /-- It is not installed. -/
  | absent
  /-- It gave no report, for a reason. -/
  | failed (reason : String)
  /-- It succeeded, but its report is not understood. -/
  | unrecognized
  /-- It reported some findings. -/
  | reported (findings : List Finding)

namespace Outcome

/-- An outcome in a few words. -/
def summary : Outcome → String
  | .absent => "not installed"
  | .failed reason => "failed: " ++ reason
  | .unrecognized => "output not recognized"
  | .reported findings => toString findings.length ++ " finding(s)"

/-- The findings of an outcome. -/
def findings : Outcome → List Finding
  | .reported findings => findings
  | _ => []

end Outcome

/-- Whether an analyzer finds its input in a repository. -/
def hasInput (root : Path) (files : FileTree) (here : Route) : Tool → Bool
  | .pipAudit => files.isFile here (root.entry "requirements.txt")
  | _ => true

/-- The analyzers to ask about a repository. -/
def select (profile : Profile) (ecosystems : List Ecosystem) (settings : Settings) (root : Path)
    (files : FileTree) (here : Route) : List Tool :=
  all.filter fun t =>
    profile.covers t.profile && ecosystems.contains t.ecosystem && settings.allows t.name &&
      t.hasInput root files here

/-- Why an analyzer gave no report: the first line of its complaint that is not blank, or else the
code that it ended with. -/
def failureReason (complaint : List Char) (code : Nat) : String :=
  match ((Text.rows complaint).map Text.trim).find? fun line => !line.isEmpty with
  | some line => String.ofList line
  | none => "exited with exit status: " ++ toString code

/-- What a reply of an analyzer comes to. -/
def outcomeOf (root : Path) (reply : Reply) (t : Tool) : Outcome :=
  let output := (Text.decodeLossy reply.output).toList
  let reason := failureReason (Text.decodeLossy reply.complaint).toList reply.code
  if Text.isBlankText output then
    if reply.succeeded then .reported [] else .failed reason
  else
    match findings? root output t with
    | some findings => .reported findings
    | none => if reply.succeeded then .unrecognized else .failed reason

/-- Asks an analyzer about a repository. -/
def run (root : Path) (t : Tool) : Act Outcome := do
  match ← Act.start t.name t.arguments (some root) with
  | .ok reply => pure (t.outcomeOf root reply)
  | .error .notFound => pure .absent
  | .error cause => pure (.failed ("could not start: " ++ cause.message))

end RepoAudit.Tool
