import RepoAudit.Remedy.Verdict
import RepoAudit.Ruby.Shell

/-!
# Guarding shell commands in Ruby

The first site's command is checked against a list of allowed commands at the top of its method,
every site is sent through the wrapper, and the wrapper is defined at the end of the file. Nothing
is changed when no expression in scope carries the command.
-/

namespace RepoAudit.Remedy.Command

open RepoAudit.Text RepoAudit.Ruby

/-- The text up to a byte offset, which the sites of the text never miss. -/
def leadTo (content : List Char) (offset : Nat) : List Char :=
  match cutAt? offset content with
  | some (lead, _) => lead
  | none => content

/-- The number of the line, from zero, that a site stands on. -/
def lineIndex (content : List Char) (site : Site) : Nat :=
  (leadTo content site.offset).count '\n'

/-- The text with the list of allowed commands and its check at the top of a site's method. -/
def insertGuard? (content : List Char) (site : Site) : Option (List Char) :=
  let (lines, terminated) := splitLines content
  let index := min (lineIndex content site) (lines.length - 1)
  let input? := match site.input with
    | some input => some input
    | none => methodParameter? lines index
  input?.map fun input =>
    let (place, indentation) := guardSite lines index
    joinLines (lines.take place ++
      [indentation ++ allowList, indentation ++ guardStart ++ input ++ [')']] ++
      lines.drop place) terminated

/-- The text with the wrapper defined at its end, unless it defines it already. -/
def withWrapper (content : List Char) : List Char :=
  if contains content wrapperMarker then content
  else content ++ (if isTerminated content then [] else ['\n']) ++ '\n' :: wrapperSource

/-- The text with its shell sites guarded and wrapped; none when nothing changes. -/
def transform (content : List Char) : Option (List Char) :=
  match firstSite? content with
  | none => none
  | some site =>
    let guarded? := if contains content allowList then some content else insertGuard? content site
    match guarded? with
    | none => none
    | some guarded =>
      let changed := withWrapper (route guarded)
      if changed = content then none else some changed

/-- Whether the list is there and checked, and no shell site is left. -/
def verify (content : List Char) : Verdict :=
  if !contains content allowList then .failed "command allow-list is missing"
  else if !contains content guardStart then .failed "allow-list is never checked"
  else
    match firstSite? content with
    | some site =>
      .failed ("line " ++ toString (lineIndex content site + 1) ++
        " still executes a shell command directly")
    | none => .passed

end RepoAudit.Remedy.Command
