import RepoAudit.Issue.Basic
import RepoAudit.Profile
import RepoAudit.Python.Prompt
import RepoAudit.Ruby.Shell
import RepoAudit.Scan.Walk
import RepoAudit.Script.Sink

/-!
# Checks

The built-in checks of a scan. A source check looks at each file of its language by itself and
reports its first weak line; the pin check looks for each advisory in its manifest at the root. A
profile runs the checks that it covers.
-/

namespace RepoAudit

/-- A check that looks at each source file by itself. -/
structure SourceCheck where
  /-- The profile that it belongs to. -/
  profile : Profile
  /-- The extensions of its language. -/
  extensions : List String
  /-- The name that its findings carry. -/
  name : String
  /-- What its findings say. -/
  description : String
  /-- The weakness that it looks for. -/
  weakness : Weakness
  /-- How urgent its findings are. -/
  severity : Severity
  /-- The vector of severity metrics of its findings. -/
  score : String
  /-- The number of the first weak line of a text. -/
  weakLine? : List Char → Option Nat

namespace SourceCheck

/-- The first line that puts raw input into a prompt, in a text that mentions a client of a language
model. -/
def promptLine? (content : List Char) : Option Nat :=
  if Python.mentionsClient content then
    (Python.firstPromptLine? (Text.rows content)).map (· + 1)
  else none

/-- The line of the first unsafe markup sink. -/
def sinkLine? (content : List Char) : Option Nat :=
  (Script.firstUnsafeSink? content).map (·.line)

/-- The line of the first shell site. -/
def shellLine? (content : List Char) : Option Nat :=
  (Ruby.firstSite? content).bind fun s => Text.lineAt? content s.offset

/-- Looks for raw input in prompts. -/
def prompt : SourceCheck where
  profile := .prompt
  extensions := ["py"]
  name := "prompt-heuristic"
  description := "Prompt Injection risk: user input concatenated into AI prompt"
  weakness := .promptInjection
  severity := .high
  score := "CVSS:3.1/AV:N/AC:L/PR:L/UI:N/S:U/C:H/I:L/A:N"
  weakLine? := promptLine?

/-- Looks for dynamic markup. -/
def markup : SourceCheck where
  profile := .markup
  extensions := Remedy.scriptExtensions
  name := "xss-heuristic"
  description := "Potential Reflected XSS: innerHTML used with unsanitized input"
  weakness := .crossSiteScripting
  severity := .medium
  score := "CVSS:3.1/AV:N/AC:L/PR:L/UI:R/S:C/C:L/I:L/A:N"
  weakLine? := sinkLine?

/-- Looks for shell commands. -/
def command : SourceCheck where
  profile := .command
  extensions := ["rb"]
  name := "rce-heuristic"
  description := "Potential command injection: system/backtick execution with unvalidated params"
  weakness := .codeInjection
  severity := .critical
  score := "CVSS:3.1/AV:N/AC:L/PR:N/UI:N/S:U/C:H/I:H/A:H"
  weakLine? := shellLine?

/-- The finding of a check in a file with some text. -/
def findingIn? (c : SourceCheck) (path : Path) (content : List Char) : Option Finding :=
  (c.weakLine? content).map fun line =>
    { description := c.description
      file := path
      line := some line
      weakness := some c.weakness
      severity := c.severity
      score := some c.score
      source := c.name }

/-- The findings of a check, file by file. A file that cannot be read as text has none. -/
def findings (c : SourceCheck) (scan : Scan) (files : FileTree) (here : Route) : List Finding :=
  (scan.filesWith c.extensions files here).filterMap fun path =>
    match files.readText here path with
    | .ok content => c.findingIn? path content.toList
    | .error _ => none

end SourceCheck

namespace Advisory

/-- The vector of severity metrics of a vulnerable pin. -/
def score : String := "CVSS:3.1/AV:N/AC:L/PR:N/UI:N/S:U/C:H/I:N/A:N"

/-- The finding of an advisory in its manifest with some text. -/
def findingIn? (a : Advisory) (path : Path) (content : List Char) : Option Finding :=
  (Text.beforeFirst? a.vulnerable.toList content).map fun lead =>
    { description := a.findingDescription
      file := path
      line := some (Text.lineAfter lead)
      weakness := some .missingAuthorization
      severity := .high
      score := some score
      source := "dependency-heuristic" }

/-- The finding of an advisory in a repository. -/
def finding? (root : Path) (files : FileTree) (here : Route) (a : Advisory) : Option Finding :=
  let path := root.join ⟨a.manifest⟩
  match files.readText here path with
  | .ok content => a.findingIn? path content.toList
  | .error _ => none

end Advisory

namespace Scan

/-- The findings of the built-in checks that a profile covers. -/
def findings (s : Scan) (profile : Profile) (advisories : List Advisory) (files : FileTree)
    (here : Route) : List Finding :=
  let source (c : SourceCheck) : List Finding :=
    if profile.covers c.profile then c.findings s files here else []
  let pins : List Finding :=
    if profile.covers .dependency then advisories.filterMap (Advisory.finding? s.root files here)
    else []
  source .prompt ++ source .markup ++ pins ++ source .command

end Scan

end RepoAudit
