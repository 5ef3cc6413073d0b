import RepoAudit.Issue.Weakness
import RepoAudit.Remedy.Command
import RepoAudit.Remedy.Markup
import RepoAudit.Remedy.Pin
import RepoAudit.Remedy.Prompt
import RepoAudit.Text.Case

/-!
# Remedies

Each weakness that can be repaired has a remedy: a plan, the files it applies to, a change of their
text, and an acceptance check.
-/

namespace RepoAudit

open RepoAudit.Text

/-- A way to repair a weakness. -/
inductive Remedy where
  | prompt
  | markup
  | pin
  | command
deriving DecidableEq, Repr

namespace Remedy

/-- The remedy of a weakness. -/
def for? : Weakness → Option Remedy
  | .promptInjection => some .prompt
  | .crossSiteScripting => some .markup
  | .missingAuthorization => some .pin
  | .codeInjection => some .command
  | .other _ => none

/-- What is planned against a weakness that has no remedy. -/
def genericPlan : String := "Apply standard secure coding practices per finding."

/-- What a remedy plans. -/
def plan : Remedy → String
  | .prompt => "Sanitize and template user input in prompts; reject dangerous tokens."
  | .markup => "Escape HTML before injecting; avoid innerHTML; use textContent."
  | .pin => "Update dependencies enabling proper authorization checks; enforce 403 on unauthorized."
  | .command => "Validate allowed commands; avoid shell execution; use safe wrappers."

/-- What is planned against a weakness, if it is known. -/
def planFor (w : Option Weakness) : String :=
  match w.bind for? with
  | some r => r.plan
  | none => genericPlan

/-- The extensions of scripts, in small letters. -/
def scriptExtensions : List String := ["js", "jsx", "ts", "tsx"]

/-- Whether a path has one of some extensions, in any case. -/
def hasExtension (extensions : List String) (path : Path) : Bool :=
  match path.extension? with
  | some e => extensions.any fun x => sameIgnoringCase x.toList e
  | none => false

/-- Whether a remedy can work on a file. -/
def appliesTo (advisories : List Advisory) (path : Path) : Remedy → Bool
  | .prompt => hasExtension ["py"] path
  | .markup => hasExtension scriptExtensions path
  | .pin => !(Pin.advisoriesFor path advisories).isEmpty
  | .command => hasExtension ["rb"] path

/-- The changed text of a file; none when there is nothing to change. -/
def transform (advisories : List Advisory) (path : Path) (content : List Char) :
    Remedy → Except Markup.Misplaced (Option (List Char))
  | .prompt => .ok (Prompt.transform content)
  | .markup => Markup.transform content
  | .pin => .ok (Pin.transform (Pin.advisoriesFor path advisories) content)
  | .command => .ok (Command.transform content)

/-- The acceptance check of a remedy on the text of a file. -/
def verify (advisories : List Advisory) (path : Path) (content : List Char) : Remedy → Verdict
  | .prompt => Prompt.verify content
  | .markup => Markup.verify content
  | .pin => Pin.verify (Pin.advisoriesFor path advisories) content
  | .command => Command.verify content

end Remedy

end RepoAudit
