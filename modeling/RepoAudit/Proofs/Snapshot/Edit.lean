import Mathlib.Logic.Relation
import RepoAudit.Lifecycle
import RepoAudit.Proofs.Snapshot.Change

/-!
# What is done to a snapshot

Everything that a command does to a snapshot between loading and saving it is one of a few edits: a
remark or the move of an issue is logged, the plan, the diff or the notes of an issue are changed, a
finding is tracked, the issues are put in order, or the context of the repository is recorded. What
every edit keeps is kept by every command.

## Main definitions

- `Snapshot.Remark` — the messages that tell of no move
- `Snapshot.Edit` — a single edit
- `Snapshot.Edits` — edits one after the other
-/

namespace RepoAudit.Snapshot

open Session

/-- The snapshot with a message added to its log. -/
def logged (now : Instant) (message : String) (s : Snapshot) : Snapshot :=
  { s with log := s.log ++ [Store.logLine now message] }

/-- A message that tells of no move: one that does not begin as the messages about an issue do, or
one about an issue that goes on without a capital letter, as no name of a stage does. -/
inductive Remark (s : Snapshot) : String → Prop
  /-- It is not about an issue. -/
  | general {message : String} (h : message.toList.head? ≠ some 'I') : Remark s message
  /-- It is about an issue of the snapshot. -/
  | onIssue {i : Issue} (hi : i ∈ s.issues) {text : String}
    (h : ∀ c, text.toList.head? = some c → c.isUpper = false) :
    Remark s ("Issue " ++ i.id ++ ": " ++ text)

/-- A single edit of a snapshot. -/
inductive Edit : Snapshot → Snapshot → Prop
  /-- A remark was logged. -/
  | remark {s : Snapshot} {message : String} (h : s.Remark message) (now : Instant) :
    Edit s (s.logged now message)
  /-- An issue was moved to another stage, and the move was logged. -/
  | move {s : Snapshot} {index : Nat} {i : Issue} {next : Stage} (hi : s.issues[index]? = some i)
    (hmove : i.stage.canMoveTo next = true) (now now' : Instant) :
    Edit s ((s.modifyIssue index fun i => { i with stage := next }.touch now).logged now'
      (moveLine i.id i.stage next))
  /-- An issue was changed, but not its core or its stage. -/
  | note {s : Snapshot} {f : Issue → Issue} (index : Nat)
    (h : ∀ i, (f i).core = i.core ∧ (f i).stage = i.stage) : Edit s (s.modifyIssue index f)
  /-- A finding was tracked. -/
  | track {s s' : Snapshot} {now : Instant} {f : Finding} {t t' : Tally}
    (h : s.track now f t = .ok (s', t')) : Edit s s'
  /-- The issues were put in order. -/
  | prioritize (s : Snapshot) : Edit s s.prioritize
  /-- Neither the issues nor the log were changed. -/
  | context {s t : Snapshot} (hidentity : t.identity = s.identity) (hissues : t.issues = s.issues)
    (hlog : t.log = s.log) : Edit s t

/-- Edits one after the other. -/
def Edits : Snapshot → Snapshot → Prop :=
  Relation.ReflTransGen Edit

theorem Edit.identity_eq {s t : Snapshot} (h : s.Edit t) : t.identity = s.identity := by
  cases h with
  | remark => rfl
  | move => rfl
  | note => rfl
  | track h => exact identity_track h
  | prioritize => rfl
  | context hidentity => exact hidentity

namespace Edits

variable {s t u : Snapshot}

theorem refl (s : Snapshot) : Edits s s :=
  Relation.ReflTransGen.refl

theorem single (h : s.Edit t) : Edits s t :=
  Relation.ReflTransGen.single h

theorem trans (h : Edits s t) (h' : Edits t u) : Edits s u :=
  Relation.ReflTransGen.trans h h'

theorem identity_eq (h : Edits s t) : t.identity = s.identity := by
  induction h with
  | refl => rfl
  | tail _ hedit ih => exact hedit.identity_eq.trans ih

/-- What every edit keeps is kept by edits one after the other. -/
theorem keeps {P : Snapshot → Prop} (hP : ∀ s t : Snapshot, s.Edit t → P s → P t)
    (h : Edits s t) (hs : P s) : P t := by
  induction h with
  | refl => exact hs
  | tail _ hedit ih => exact hP _ _ hedit ih

/-- Tracking some findings edits a snapshot once for each. -/
theorem ingest {findings : List (Instant × Finding)} {t : Tally} {s' : Snapshot}
    (h : s.ingest findings = .ok (s', t)) : Edits s s' :=
  ingest_induction refl (fun _ _ _ => trans) (fun _ _ _ _ _ _ h => single (.track h)) h

end Edits

end RepoAudit.Snapshot
