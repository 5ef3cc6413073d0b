import RepoAudit.Diff.Patch
import RepoAudit.Remedy.Basic
import RepoAudit.Store

/-!
# Repairing the file of an issue

Applying the remedy of an issue changes its file and stores the diff. Whatever is wrong with the
issue or its file is a reason not to apply; only a diff that cannot be stored is a failure. Checking
reads the file again.
-/

namespace RepoAudit

/-- What came of applying a remedy. -/
inductive FixOutcome where
  /-- The file was changed; its diff is stored at a path. -/
  | applied (artifact : Path)
  /-- Nothing was done, for a reason. -/
  | notApplicable (reason : String)
deriving DecidableEq, Repr

namespace Issue

/-- The remedy of an issue and the file it works on, or the reason why there is none. -/
def remedyAndFile (i : Issue) : Except String (Remedy × Path) :=
  match i.weakness with
  | none => .error "issue has no classifier"
  | some w =>
    match Remedy.for? w with
    | none => .error ("no automated remediation for " ++ w.tag)
    | some r =>
      match i.file with
      | none => .error "issue has no file path"
      | some file => .ok (r, file)

/-- Why a file cannot be used. -/
def cannot (verb : String) (file : Path) (cause : FileError) : String :=
  "cannot " ++ verb ++ " " ++ file.text ++ ": " ++ cause.message

/-- The reason when a remedy does not work on a kind of file. -/
def doesNotApply (i : Issue) (file : Path) : String :=
  (i.weakness.map Weakness.tag).getD "" ++ " fix does not apply to " ++ file.text

/-- The reason when a remedy finds nothing to change. -/
def nothingToChange : String := "no vulnerable pattern the fix can rewrite"

/-- Applies the remedy of an issue of a snapshot to its file. -/
def repair (st : Store) (advisories : List Advisory) (s : Snapshot) (i : Issue) :
    Act FixOutcome := do
  match i.remedyAndFile with
  | .error reason => pure (.notApplicable reason)
  | .ok (remedy, file) =>
    if !remedy.appliesTo advisories file then pure (.notApplicable (i.doesNotApply file))
    else
      match ← Act.readText file with
      | .error cause => pure (.notApplicable (cannot "read" file cause))
      | .ok text =>
        match remedy.transform advisories file text.toList with
        | .error _ => Act.fail .misplacedCut
        | .ok none => pure (.notApplicable nothingToChange)
        | .ok (some changed) =>
          match ← Act.writeText file (String.ofList changed) with
          | .error cause => pure (.notApplicable (cannot "write" file cause))
          | .ok () =>
            let shown := (file.below s.root).text
            let diff := Diff.patch shown text.toList changed
            let artifact ← st.writeArtifact s.slug i.id (String.ofList diff)
            pure (.applied artifact)

/-- The acceptance check of an issue on its file. -/
def check (advisories : List Advisory) (i : Issue) : Act Verdict := do
  match i.remedyAndFile with
  | .error reason => pure (.failed reason)
  | .ok (remedy, file) =>
    match ← Act.readText file with
    | .error cause => pure (.failed (cannot "read" file cause))
    | .ok text => pure (remedy.verify advisories file text.toList)

end Issue

end RepoAudit
