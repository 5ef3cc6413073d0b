import RepoAudit.Instant.Written
import RepoAudit.Json.Decode
import RepoAudit.Json.Printer
import RepoAudit.Json.Reader
import RepoAudit.Snapshot

/-!
# Snapshots as JSON

A snapshot is stored as a pretty JSON document. Fields that have no value are left out; lists are
always written. Reading takes whatever the record rules admit.
-/

namespace RepoAudit

open Json

/-- The entry of a field, unless it has no value. -/
def entryIfAny {α : Type} (key : String) (write : α → Json) : Option α → List (String × Json)
  | some a => [(key, write a)]
  | none => []

/-- A list of values as an array. -/
def listJson {α : Type} (write : α → Json) (items : List α) : Json :=
  .array (items.map write)

namespace Issue

/-- The fields of an issue, in order. -/
def fieldNames : List String :=
  ["id", "repoPath", "description", "filePath", "line", "cwe", "severity", "cvss", "state",
    "domain", "techStack", "createdAt", "updatedAt", "remediationPlan", "fixPatchPath", "notes"]

/-- An issue as a JSON record. -/
def toJson (i : Issue) : Json :=
  Json.record <|
    [("id", Json.text i.id), ("repoPath", Json.text i.repository),
      ("description", Json.text i.description)] ++
    entryIfAny "filePath" (fun p : Path => Json.text p.text) i.file ++
    entryIfAny "line" Json.nat i.line ++
    entryIfAny "cwe" (fun w : Weakness => Json.text w.tag) i.weakness ++
    [("severity", Json.text i.severity.name)] ++
    entryIfAny "cvss" Json.text i.score ++
    [("state", Json.text i.stage.name)] ++
    entryIfAny "domain" (fun d : Domain => Json.text d.name) i.domain ++
    entryIfAny "techStack" (listJson fun e : Ecosystem => Json.text e.name) i.ecosystems ++
    [("createdAt", Json.text i.createdAt.write), ("updatedAt", Json.text i.updatedAt.write)] ++
    entryIfAny "remediationPlan" Json.text i.plan ++
    entryIfAny "fixPatchPath" (fun p : Path => Json.text p.text) i.artifact ++
    entryIfAny "notes" Json.text i.notes

end Issue

/-- A path from a JSON string. -/
def pathOfJson? (j : Json) : Option Path :=
  (string? j).map Path.mk

/-- A weakness from a JSON string. -/
def weaknessOfJson? (j : Json) : Option Weakness :=
  (string? j).map Weakness.ofTag

/-- An instant from a JSON string. -/
def instantOfJson? (j : Json) : Option Instant :=
  (string? j).bind Instant.read?

/-- The member of an enumeration that a JSON value names. -/
def memberOfJson? {α : Type} (ofName? : String → Option α) (j : Json) : Option α :=
  (name? j).bind ofName?

/-- An issue from a JSON record. -/
def Issue.ofJson? (j : Json) : Option Issue := do
  let fields ← fields? Issue.fieldNames j
  let id ← required string? (fieldAt fields 0)
  let repository ← required string? (fieldAt fields 1)
  let description ← required string? (fieldAt fields 2)
  let file ← optional pathOfJson? (fieldAt fields 3)
  let line ← optional counter? (fieldAt fields 4)
  let weakness ← optional weaknessOfJson? (fieldAt fields 5)
  let severity ← required (memberOfJson? Severity.ofName?) (fieldAt fields 6)
  let score ← optional string? (fieldAt fields 7)
  let stage ← required (memberOfJson? Stage.ofName?) (fieldAt fields 8)
  let domain ← optional (memberOfJson? Domain.ofName?) (fieldAt fields 9)
  let ecosystems ← optional (list? (memberOfJson? Ecosystem.ofName?)) (fieldAt fields 10)
  let createdAt ← required instantOfJson? (fieldAt fields 11)
  let updatedAt ← required instantOfJson? (fieldAt fields 12)
  let plan ← optional string? (fieldAt fields 13)
  let artifact ← optional pathOfJson? (fieldAt fields 14)
  let notes ← optional string? (fieldAt fields 15)
  some ⟨id, repository, description, file, line, weakness, severity, score, stage, domain,
    ecosystems, createdAt, updatedAt, plan, artifact, notes⟩

namespace Snapshot

/-- The fields of a snapshot, in order. -/
def fieldNames : List String :=
  ["repoPath", "slug", "workingCopy", "domain", "techStack", "issues", "logs", "lastRunAt",
    "lastProfile"]

/-- A snapshot as a JSON record. -/
def toJson (s : Snapshot) : Json :=
  Json.record <|
    [("repoPath", Json.text s.repository), ("slug", Json.text s.slug)] ++
    entryIfAny "workingCopy" (fun p : Path => Json.text p.text) s.workingCopy ++
    entryIfAny "domain" (fun d : Domain => Json.text d.name) s.domain ++
    entryIfAny "techStack" (listJson fun e : Ecosystem => Json.text e.name) s.ecosystems ++
    [("issues", listJson Issue.toJson s.issues), ("logs", listJson Json.text s.log)] ++
    entryIfAny "lastRunAt" (fun t : Instant => Json.text t.write) s.lastRunAt ++
    entryIfAny "lastProfile" (fun p : Profile => Json.text p.name) s.lastProfile

/-- A snapshot from a JSON record. -/
def ofJson? (j : Json) : Option Snapshot := do
  let fields ← fields? fieldNames j
  let repository ← required string? (fieldAt fields 0)
  let slug ← required string? (fieldAt fields 1)
  let workingCopy ← optional pathOfJson? (fieldAt fields 2)
  let domain ← optional (memberOfJson? Domain.ofName?) (fieldAt fields 3)
  let ecosystems ← optional (list? (memberOfJson? Ecosystem.ofName?)) (fieldAt fields 4)
  let issues ← withDefault [] (list? Issue.ofJson?) (fieldAt fields 5)
  let log ← withDefault [] (list? string?) (fieldAt fields 6)
  let lastRunAt ← optional instantOfJson? (fieldAt fields 7)
  let lastProfile ← optional (memberOfJson? Profile.ofName?) (fieldAt fields 8)
  some ⟨repository, slug, workingCopy, domain, ecosystems, issues, log, lastRunAt, lastProfile⟩

/-- The stored text of a snapshot. -/
def write (s : Snapshot) : String :=
  s.toJson.pretty

/-- Reads the stored text of a snapshot. -/
def read? (text : String) : Option Snapshot :=
  (Json.read? text).bind ofJson?

end Snapshot

end RepoAudit
