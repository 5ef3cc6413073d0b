import RepoAudit.Issue.Basic
import RepoAudit.Json.Decode
import RepoAudit.Json.Magnitude
import RepoAudit.Json.Reader
import RepoAudit.Text.Case
import RepoAudit.Tool.Basic

/-!
# Analyzer reports

Each analyzer prints a JSON report, perhaps behind a banner, which is skipped up to the bracket
that opens a report. A report is read tolerantly: what is not needed may be missing or be anything
at all. Reports that do not have the analyzer's shape are refused.
-/

namespace RepoAudit.Tool

open RepoAudit.Text RepoAudit.Json

/-- The output from the first given bracket on, or all of it. -/
def fromBracket (bracket : Char) (output : List Char) : List Char :=
  match output.dropWhile (· ≠ bracket) with
  | [] => output
  | report => report

/-- The path of a reported file: a relative one lies below the root that the analyzer worked on. -/
def reportedPath (root : Path) (reported : String) : Path :=
  let path : Path := ⟨reported⟩
  if path.isAbsolute then path
  else root.join (Path.ofList ((after? "./".toList reported.toList).getD reported.toList))

/-- A field that is a string and empty when absent. -/
def textField (fields : List (Option Json)) (i : Nat) : Option String :=
  withDefault "" string? (fieldAt fields i)

/-- A result of `bandit`. -/
structure BanditResult where
  /-- The file, as reported. -/
  file : String
  /-- The severity's name. -/
  severity : String
  /-- What was seen. -/
  text : String
  /-- The name of the check. -/
  check : String
  /-- The line. -/
  line : Option Nat
  /-- The number of the weakness. -/
  weakness : Option Nat

/-- The number of a weakness in a result. -/
def weaknessNumber? (j : Json) : Option (Option Nat) := do
  let fields ← fields? ["id"] j
  optional counter? (fieldAt fields 0)

/-- Reads a result. -/
def BanditResult.ofJson? (j : Json) : Option BanditResult := do
  let fields ← fields?
    ["filename", "issue_severity", "issue_text", "test_name", "line_number", "issue_cwe"] j
  let file ← textField fields 0
  let severity ← textField fields 1
  let text ← textField fields 2
  let check ← textField fields 3
  let line ← optional counter? (fieldAt fields 4)
  let weakness ← optional weaknessNumber? (fieldAt fields 5)
  some ⟨file, severity, text, check, line, weakness.join⟩

/-- The finding of a result. -/
def BanditResult.finding (root : Path) (r : BanditResult) : Finding where
  description := "Bandit: " ++ r.check ++ " - " ++ r.text
  file := reportedPath root r.file
  line := r.line
  weakness := (r.weakness.filter (0 < ·)).map Weakness.ofNumber
  severity :=
    let upper := upperKeywords r.severity.toList
    if upper = "HIGH".toList || upper = "UNSAFE".toList then .high else .medium
  score := none
  source := "bandit"

/-- The findings of a `bandit` report. -/
def banditFindings? (root : Path) (output : List Char) : Option (List Finding) := do
  let j ← readChars? (fromBracket '{' output)
  let fields ← fields? ["results"] j
  let results ← required (list? BanditResult.ofJson?) (fieldAt fields 0)
  some ((results.filter fun r => !r.file.isEmpty).map (BanditResult.finding root))

/-- A message of `eslint`. -/
structure EslintMessage where
  /-- The rule. -/
  rule : Option String
  /-- What was seen. -/
  text : String
  /-- The line. -/
  line : Option Nat

/-- Reads a message. -/
def EslintMessage.ofJson? (j : Json) : Option EslintMessage := do
  let fields ← fields? ["ruleId", "message", "line"] j
  let rule ← optional string? (fieldAt fields 0)
  let text ← textField fields 1
  let line ← optional counter? (fieldAt fields 2)
  some ⟨rule, text, line⟩

/-- Whether a message is about injected markup. -/
def EslintMessage.isAboutMarkup (m : EslintMessage) : Bool :=
  let mentions (s : String) : Bool := contains (lowerKeywords s.toList) "innerhtml".toList
  mentions (m.rule.getD "") || mentions m.text

/-- The finding of a message in a file. -/
def EslintMessage.finding (root : Path) (file : String) (m : EslintMessage) : Finding where
  description := "ESLint: " ++ m.text
  file := reportedPath root file
  line := m.line
  weakness := some .crossSiteScripting
  severity := .medium
  score := none
  source := "eslint"

/-- A file of an `eslint` report with its messages. -/
def eslintFile? (j : Json) : Option (String × List EslintMessage) := do
  let fields ← fields? ["filePath", "messages"] j
  let file ← required string? (fieldAt fields 0)
  let messages ← withDefault [] (list? EslintMessage.ofJson?) (fieldAt fields 1)
  some (file, messages)

/-- The findings of an `eslint` report. -/
def eslintFindings? (root : Path) (output : List Char) : Option (List Finding) := do
  let j ← readChars? (fromBracket '[' output)
  let files ← list? eslintFile? j
  some <| files.flatMap fun (file, messages) =>
    (messages.filter EslintMessage.isAboutMarkup).map (EslintMessage.finding root file)

/-- A warning of `brakeman`. -/
structure BrakemanWarning where
  /-- The kind of the warning. -/
  kind : String
  /-- What was seen. -/
  text : String
  /-- The file, as reported. -/
  file : String
  /-- The line. -/
  line : Option Nat
  /-- How sure the analyzer is. -/
  confidence : String

/-- Reads a warning. -/
def BrakemanWarning.ofJson? (j : Json) : Option BrakemanWarning := do
  let fields ← fields? ["warning_type", "message", "file", "line", "confidence"] j
  let kind ← textField fields 0
  let text ← textField fields 1
  let file ← textField fields 2
  let line ← optional counter? (fieldAt fields 3)
  let confidence ← textField fields 4
  some ⟨kind, text, file, line, confidence⟩

/-- The kinds of warning that are about executing commands or code. -/
def executionWarnings : List String :=
  ["Command Injection", "Dangerous Eval", "Remote Code Execution"]

/-- The finding of a warning. -/
def BrakemanWarning.finding (root : Path) (w : BrakemanWarning) : Finding where
  description := "Brakeman: " ++ w.kind ++ " - " ++ w.text
  file := reportedPath root w.file
  line := w.line
  weakness := some .codeInjection
  severity := if sameIgnoringCase w.confidence.toList "high".toList then .critical else .high
  score := none
  source := "brakeman"

/-- The findings of a `brakeman` report. -/
def brakemanFindings? (root : Path) (output : List Char) : Option (List Finding) := do
  let j ← readChars? (fromBracket '{' output)
  let fields ← fields? ["warnings"] j
  let warnings ← required (list? BrakemanWarning.ofJson?) (fieldAt fields 0)
  some <| (warnings.filter fun w => executionWarnings.contains w.kind && !w.file.isEmpty).map
    (BrakemanWarning.finding root)

/-- A known vulnerability of a dependency. -/
structure Vulnerability where
  /-- Its identifier. -/
  id : String
  /-- The versions that fix it. -/
  fixVersions : List String

/-- Reads a vulnerability. -/
def Vulnerability.ofJson? (j : Json) : Option Vulnerability := do
  let fields ← fields? ["id", "fix_versions"] j
  let id ← required string? (fieldAt fields 0)
  let fixVersions ← withDefault [] (list? string?) (fieldAt fields 1)
  some ⟨id, fixVersions⟩

/-- A dependency with its known vulnerabilities. -/
structure Dependency where
  /-- Its name. -/
  name : String
  /-- Its version. -/
  version : Option String
  /-- Its vulnerabilities. -/
  vulnerabilities : List Vulnerability

/-- Reads a dependency. -/
def Dependency.ofJson? (j : Json) : Option Dependency := do
  let fields ← fields? ["name", "version", "vulns"] j
  let name ← required string? (fieldAt fields 0)
  let version ← optional string? (fieldAt fields 1)
  let vulnerabilities ← withDefault [] (list? Vulnerability.ofJson?) (fieldAt fields 2)
  some ⟨name, version, vulnerabilities⟩

/-- The tag of a vulnerable component. -/
def vulnerableComponent : Weakness := .other "CWE-1395"

/-- The findings of a dependency. -/
def Dependency.findings (root : Path) (d : Dependency) : List Finding :=
  d.vulnerabilities.map fun v =>
    { description := "pip-audit: " ++
        (match d.version with
        | some version => d.name ++ "==" ++ version
        | none => d.name) ++
        " (" ++ v.id ++
        (match v.fixVersions.head? with
        | some version => "; fixed in " ++ version
        | none => "") ++ ")"
      file := root.entry "requirements.txt"
      line := none
      weakness := some vulnerableComponent
      severity := .high
      score := none
      source := "pip-audit" }

/-- The levels of nesting that a report may have where its shape is told only from all of it. -/
def maxDepth : Nat := 127

/-- Whether every string of a report is text and every number is in range. -/
def isPlain (j : Json) : Bool :=
  j.depth ≤ maxDepth && j.every Option.isSome fun
    | .string s => s.isSome
    | .number digits => isInRange digits
    | _ => true

/-- The dependencies of a report that wraps them in an object. -/
def wrappedDependencies? : Json → Option (List Dependency)
  | .object entries =>
    (fields? ["dependencies"] (.object entries)).bind fun fields =>
      required (list? Dependency.ofJson?) (fieldAt fields 0)
  | _ => none

/-- The findings of a `pip-audit` report, whose dependencies may be wrapped in an object or stand
alone. -/
def pipAuditFindings? (root : Path) (output : List Char) : Option (List Finding) := do
  let trimmed := trimStart output
  let j ← readChars? (if trimmed.head? == some '[' then trimmed else fromBracket '{' output)
  if !isPlain j then none
  else
    let dependencies ← match wrappedDependencies? j with
      | some ds => some ds
      | none => list? Dependency.ofJson? j
    some (dependencies.flatMap (Dependency.findings root))

/-- The findings of an analyzer's report on the tree below `root`. -/
def findings? (root : Path) (output : List Char) : Tool → Option (List Finding)
  | .bandit => banditFindings? root output
  | .eslint => eslintFindings? root output
  | .brakeman => brakemanFindings? root output
  | .pipAudit => pipAuditFindings? root output

end RepoAudit.Tool
