import RepoAudit.Checkout.Commit
import RepoAudit.Refresh
import RepoAudit.Proofs.World.Keeps

/-!
# Version control under a watch

Asking version control, refreshing a checkout, copying a repository and committing touch files only
through the program that they start and the directories that they make. What a watch sees is kept
when these may be started and made.

## Main definitions

- `Checkout.Lets` — version control may be started with some arguments under a watch

## Main statements

- `Checkout.keeps_root?`, `Checkout.keeps_pull`, `Checkout.keeps_copy`, `Checkout.keeps_commit`
- `keeps_refreshLocal`, `keeps_refreshRemote`
-/

namespace RepoAudit

open Act

variable {W : Watch} {p : Prop}

namespace Checkout

/-- The arguments that ask for the root of a checkout. -/
def askingArguments : List String := ["rev-parse", "--show-toplevel"]

/-- Version control may be started with some arguments. -/
def Lets (W : Watch) (arguments : List String) : Prop :=
  ∀ (p : Prop) (directory? : Option Path),
    Keeps W p (Act.start program arguments directory?) fun _ => True

theorem lets_of_letsStart (hW : W.LetsStart) (arguments : List String) : Lets W arguments :=
  fun p directory? => hW p program arguments directory?

theorem keeps_isAt (root : Path) :
    Keeps W p (isAt root) fun _ => True :=
  Keeps.look_any fun files here => files.isPresent here (mark root)

theorem keeps_require (root : Path) :
    Keeps W p (require root) fun _ => True := by
  refine (keeps_isAt root).bind fun isCheckout => ?_
  split
  · exact Keeps.pure fun _ => trivial
  · exact Keeps.fail _

theorem keeps_enclosing? (hask : Lets W askingArguments) (path : Path) :
    Keeps W p (enclosing? path) fun _ => True := by
  have hdirectory : Keeps W p (askingDirectory? path) fun _ => True := by
    refine (Keeps.look_any _).bind fun isFile => ?_
    split <;> exact Keeps.pure fun _ => trivial
  refine hdirectory.bind fun directory? => ?_
  cases directory? with
  | none => exact Keeps.pure fun _ => trivial
  | some directory =>
    refine (hask _ (some directory)).bind fun result => ?_
    cases result <;> exact Keeps.pure fun _ => trivial

theorem keeps_root? (hask : Lets W askingArguments) (path : Path) :
    Keeps W p (root? path) fun _ => True := by
  refine (keeps_isAt path).bind fun isCheckout => ?_
  split
  · exact Keeps.pure fun _ => trivial
  · refine (Keeps.look_any _).bind fun isDirectory => ?_
    split
    · exact keeps_enclosing? hask path
    · exact Keeps.pure fun _ => trivial

theorem keeps_command {arguments : List String} (harguments : Lets W arguments) (c : GitCommand)
    (directory? : Option Path) :
    Keeps W p (command c arguments directory?) fun _ => True := by
  refine (harguments _ directory?).bind fun result => ?_
  cases result with
  | ok reply => exact Keeps.pure fun _ => trivial
  | error cause => exact Keeps.fail _

theorem keeps_requireSuccess (c : GitCommand) (reply : Reply) :
    Keeps W p (requireSuccess c reply) fun _ => True := by
  rw [requireSuccess]
  split
  · exact Keeps.pure fun _ => trivial
  · exact Keeps.fail _

/-- Refreshing a checkout keeps what is watched. -/
theorem keeps_pull (hW : W.LetsStart) (root : Path) :
    Keeps W p (pull root) fun _ => True :=
  (keeps_require root).bind fun _ => (keeps_command (lets_of_letsStart hW _) _ _).bind fun _ =>
    keeps_requireSuccess _ _

/-- Copying a repository keeps what is watched. -/
theorem keeps_copy (hW : W.LetsStart) (address : String) (target : Path)
    (hparent : ∀ parent, target.parent? = some parent →
      Keeps W p (Act.makeDirectories parent) fun _ => True) :
    Keeps W p (copy address target) fun _ => True := by
  have hclone : ∀ {p : Prop}, Keeps W p
      (do
        requireSuccess .clone (← command .clone ["clone", address, target.text] none)
        require target) fun _ => True :=
    (keeps_command (lets_of_letsStart hW _) _ _).bind fun _ =>
      (keeps_requireSuccess _ _).bind fun _ => keeps_require target
  delta copy
  cases htarget : target.parent? with
  | none => exact hclone
  | some parent => exact (Keeps.orRefused _ _ (hparent parent htarget)).bind fun _ => hclone

/-- Once there is a reply to staging, what is staged is committed. -/
theorem keeps_commitStaged {spec : Option Path} {message : CommitMessage}
    (hcommit : Lets W (commitArguments spec message)) (root : Path) (staged : Reply) :
    Keeps W p
      (do
        requireSuccess .add staged
        let reply ← command .commit (commitArguments spec message) (some root)
        if reply.succeeded then pure true
        else if saysNothing reply then pure false
        else Act.fail (.gitFailed .commit (trimmedText reply.complaint))) fun _ => True := by
  refine (keeps_requireSuccess _ _).bind fun _ => (keeps_command hcommit _ _).bind fun reply => ?_
  split
  · exact Keeps.pure fun _ => trivial
  · split
    · exact Keeps.pure fun _ => trivial
    · exact Keeps.fail _

/-- Committing keeps what is watched when version control may be started with its two lists of
arguments. -/
theorem keeps_commit {root : Path} {file : Option Path} {message : CommitMessage}
    (hadd : Lets W (addArguments (pathspec? root file)))
    (hcommit : Lets W (commitArguments (pathspec? root file) message)) :
    Keeps W p (commit root file message) fun _ => True :=
  (keeps_require root).bind fun _ => (keeps_command hadd _ _).bind fun reply =>
    keeps_commitStaged hcommit root reply

end Checkout

theorem keeps_commitIssue (hW : W.LetsStart) (s : Snapshot) (i : Issue) :
    Keeps W p (s.commitIssue i) fun _ => True := by
  refine (Checkout.keeps_root? (Checkout.lets_of_letsStart hW _) _).bind fun root? => ?_
  cases root? with
  | none => exact Keeps.pure fun _ => trivial
  | some root =>
    refine (Checkout.keeps_commit (Checkout.lets_of_letsStart hW _)
      (Checkout.lets_of_letsStart hW _)).outcome.bind fun result => ?_
    split <;> exact Keeps.pure fun _ => trivial

/-! ## Refreshing -/

theorem keeps_refreshOutcome {act : Act Unit} (success : RefreshOutcome)
    (h : Keeps W p act fun _ => True) :
    Keeps W p (RefreshOutcome.ofAct success act) fun _ => True := by
  refine h.outcome.bind fun result => ?_
  cases result <;> exact Keeps.pure fun _ => trivial

theorem keeps_refreshLocal (hW : W.LetsStart) (path : Path) :
    Keeps W p (refreshLocal path) fun _ => True := by
  refine (Checkout.keeps_root? (Checkout.lets_of_letsStart hW _) path).bind fun root? => ?_
  cases root? with
  | none => exact Keeps.pure fun _ => trivial
  | some root => exact keeps_refreshOutcome _ (Checkout.keeps_pull hW root)

theorem keeps_refreshRemote (hW : W.LetsStart) (address : String) (target : Path)
    (hparent : ∀ (p : Prop) parent, target.parent? = some parent →
      Keeps W p (Act.makeDirectories parent) fun _ => True) :
    Keeps W p (refreshRemote address target) fun _ => True := by
  refine (Checkout.keeps_isAt target).bind fun isCheckout => ?_
  split
  · exact keeps_refreshOutcome _ (Checkout.keeps_pull hW target)
  · exact keeps_refreshOutcome _ (Checkout.keeps_copy hW address target (hparent _))

end RepoAudit
