import RepoAudit.Text.Blank
import RepoAudit.Text.Utf8
import RepoAudit.World

/-!
# Checkouts

Version control as a command sees it. A directory is a checkout when it holds the entry `.git`;
another directory may lie inside one, which version control itself is asked for. Refreshing a
checkout and copying a remote repository are commands of version control, too.
-/

namespace RepoAudit

namespace Checkout

/-- The name of the program. -/
def program : String := "git"

/-- The entry that makes a directory a checkout. -/
def mark (root : Path) : Path :=
  root.entry ".git"

/-- Whether a directory is a checkout. -/
def isAt (root : Path) : Act Bool :=
  Act.isPresent (mark root)

/-- Fails unless a directory is a checkout. -/
def require (root : Path) : Act Unit := do
  if ← isAt root then pure () else Act.fail (.notCheckout root)

/-- What a program printed or complained with, as text without blanks at its ends. -/
def trimmedText (bytes : ByteArray) : String :=
  Text.trimString (Text.decodeLossy bytes)

/-- The directory in which version control is asked about a path: that of a file, or the path
itself. -/
def askingDirectory? (path : Path) : Act (Option Path) := do
  if ← Act.isFile path then pure path.parent? else pure (some path)

/-- The root of the checkout around a path, as version control reports it. -/
def enclosing? (path : Path) : Act (Option Path) := do
  match ← askingDirectory? path with
  | none => pure none
  | some directory =>
    match ← Act.start program ["rev-parse", "--show-toplevel"] (some directory) with
    | .error _ => pure none
    | .ok reply =>
      let root := trimmedText reply.output
      pure (if reply.succeeded && !root.isEmpty then some ⟨root⟩ else none)

/-- The root of the checkout that a directory is or lies in. -/
def root? (path : Path) : Act (Option Path) := do
  if ← isAt path then pure (some path)
  else if ← Act.isDirectory path then enclosing? path
  else pure none

/-- Runs a command of version control, in a directory if one is given. The reply may be one of
failure. -/
def command (c : GitCommand) (arguments : List String) (directory? : Option Path) : Act Reply := do
  match ← Act.start program arguments directory? with
  | .ok reply => pure reply
  | .error cause => Act.fail (.gitNotStarted c cause)

/-- Fails unless a command of version control succeeded. -/
def requireSuccess (c : GitCommand) (reply : Reply) : Act Unit :=
  if reply.succeeded then pure () else Act.fail (.gitFailed c (trimmedText reply.complaint))

/-- Refreshes a checkout from where it came from. -/
def pull (root : Path) : Act Unit := do
  require root
  requireSuccess .pull (← command .pull ["pull", "--rebase"] (some root))

/-- Copies a remote repository. -/
def copy (address : String) (target : Path) : Act Unit := do
  match target.parent? with
  | none => pure ()
  | some parent => Act.orRefused .makeCloneDirectory parent (Act.makeDirectories parent)
  requireSuccess .clone (← command .clone ["clone", address, target.text] none)
  require target

end Checkout

end RepoAudit
