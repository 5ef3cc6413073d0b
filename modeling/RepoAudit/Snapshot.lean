import RepoAudit.Issue.Basic
import RepoAudit.Profile

/-!
# Snapshots

Everything that is known about one repository: its context, its issues in order, and its log. The
slug of a repository names its directory in the store; it is the repository's path with every run
of separators and blanks written as one underscore.
-/

namespace RepoAudit

/-- What is known about one repository. -/
structure Snapshot where
  /-- The repository, a local path or a remote address. -/
  repository : String
  /-- The name of its directory in the store. -/
  slug : String
  /-- The local copy of a remote repository. -/
  workingCopy : Option Path
  /-- Its business domain. -/
  domain : Option Domain
  /-- Its ecosystems. -/
  ecosystems : Option (List Ecosystem)
  /-- Its issues, in order of priority. -/
  issues : List Issue
  /-- Its log, oldest line first. -/
  log : List String
  /-- When it was last refreshed. -/
  lastRunAt : Option Instant
  /-- The profile of its last scan. -/
  lastProfile : Option Profile
deriving DecidableEq

/-- A character that a slug does not keep. -/
def isSlugSeparator (c : Char) : Bool :=
  c == '\\' || c == '/' || c == ':' || Text.isBlank c

/-- Each run of separators as one underscore. -/
def joinSeparators : (inRun : Bool) → List Char → List Char
  | _, [] => []
  | inRun, c :: cs =>
    if isSlugSeparator c then
      if inRun then joinSeparators true cs else '_' :: joinSeparators true cs
    else c :: joinSeparators false cs

/-- A text without the underscores at its two ends. -/
def trimUnderscores (cs : List Char) : List Char :=
  ((cs.dropWhile (· = '_')).reverse.dropWhile (· = '_')).reverse

/-- The slug of a repository. -/
def slugOf (repository : String) : String :=
  String.ofList (trimUnderscores (joinSeparators false repository.toList))

namespace Snapshot

/-- The snapshot of a repository seen for the first time. -/
def new (repository : String) : Snapshot where
  repository := repository
  slug := slugOf repository
  workingCopy := none
  domain := none
  ecosystems := none
  issues := []
  log := []
  lastRunAt := none
  lastProfile := none

/-- The directory that checks and version control work on. -/
def root (s : Snapshot) : Path :=
  s.workingCopy.getD ⟨s.repository⟩

/-- The place of the first issue with an identifier. -/
def indexOf? (s : Snapshot) (id : String) : Option Nat :=
  s.issues.findIdx? fun i => i.id == id

/-- The file of an issue as shown to a reader: relative to the root where it lies below it. -/
def shownFile (s : Snapshot) (i : Issue) : String :=
  match i.file with
  | some p => (p.below s.root).text
  | none => ""

/-- The issues in order of priority. -/
def prioritize (s : Snapshot) : Snapshot :=
  { s with issues := s.issues.mergeSort Issue.precedes }

/-- The snapshot with one issue changed. -/
def modifyIssue (s : Snapshot) (index : Nat) (f : Issue → Issue) : Snapshot :=
  { s with issues := s.issues.modify index f }

end Snapshot

end RepoAudit
