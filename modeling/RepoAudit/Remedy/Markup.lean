import RepoAudit.Remedy.Verdict
import RepoAudit.Script.Sink

/-!
# Escaping markup in scripts

Every unsafe right-hand side of a markup sink is escaped, the last one first, so that the
offsets of the others hold; then the helper is defined after the prologue, unless a definition is
there. A right-hand side that lies inside another one has been escaped when the outer one's turn
comes, so the outer offsets may then cut a character or lie beyond the end.
-/

namespace RepoAudit.Remedy.Markup

open RepoAudit.Text RepoAudit.Script

/-- An offset at which a text cannot be cut. -/
structure Misplaced where
  /-- Where the cut was to end, in bytes. -/
  stop : Nat
deriving DecidableEq, Repr

/-- The text with the right-hand sides of some sinks escaped, the last one first. -/
def escapeSinks (content : List Char) : List Sink → Except Misplaced (List Char)
  | [] => .ok content
  | s :: rest =>
    match escapeSinks content rest with
    | .error e => .error e
    | .ok changed =>
      match spliceAt? s.start s.stop (escape s.expression) changed with
      | some text => .ok text
      | none => .error ⟨s.stop⟩

/-- The text with the helper defined after its prologue, unless it defines it already. -/
def withHelper (content : List Char) : List Char :=
  if contains content helperMarker.toList then content
  else
    let lead := prologue content
    lead ++ helperSource.toList ++ '\n' :: content.drop lead.length

/-- The text with every unsafe sink escaped; none when there is nothing to change. -/
def transform (content : List Char) : Except Misplaced (Option (List Char)) :=
  match unsafeSinks content with
  | [] => .ok none
  | sinks =>
    match escapeSinks content sinks with
    | .error e => .error e
    | .ok changed =>
      let text := withHelper changed
      .ok (if text = content then none else some text)

/-- Whether the helper is defined and no unsafe sink is left. -/
def verify (content : List Char) : Verdict :=
  if !contains content helperMarker.toList then .failed "sanitize helper is missing"
  else
    match firstUnsafeSink? content with
    | some s => .failed ("line " ++ toString s.line ++ " still injects unescaped markup")
    | none => .passed

end RepoAudit.Remedy.Markup
