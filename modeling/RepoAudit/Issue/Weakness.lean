import RepoAudit.Text.Match
import RepoAudit.Text.Blank

/-!
# Weakness tags

Four weaknesses are known by name; any other tag is kept as reported. A tag may be given with its
`CWE-` mark or as a bare number, and a bare number gains the mark.
-/

namespace RepoAudit

/-- The category of a weakness. -/
inductive Weakness where
  /-- User input reaches the prompt of a language model, CWE-1427. -/
  | promptInjection
  /-- Markup is injected into a page, CWE-79. -/
  | crossSiteScripting
  /-- An authorization check is missing, CWE-862. -/
  | missingAuthorization
  /-- Code or a command is injected, CWE-94. -/
  | codeInjection
  /-- Any other category, by its tag. -/
  | other (tag : String)
deriving DecidableEq, Repr

namespace Weakness

open RepoAudit.Text

/-- The tag of a weakness. -/
def tag : Weakness → String
  | .promptInjection => "CWE-1427"
  | .crossSiteScripting => "CWE-79"
  | .missingAuthorization => "CWE-862"
  | .codeInjection => "CWE-94"
  | .other tag => tag

/-- A tag without its mark, which is in capitals or in small letters throughout. -/
def withoutMark (cs : List Char) : List Char :=
  match after? "CWE-".toList cs with
  | some rest => rest
  | none =>
    match after? "cwe-".toList cs with
    | some rest => rest
    | none => cs

/-- The weakness that a reported tag means; a blank tag means none. -/
def parse? (raw : String) : Option Weakness :=
  let tag := trim raw.toList
  if tag.isEmpty then none
  else
    let number := withoutMark tag
    some <|
      if number = "1427".toList then .promptInjection
      else if number = "79".toList then .crossSiteScripting
      else if number = "862".toList then .missingAuthorization
      else if number = "94".toList then .codeInjection
      else if number.all Char.isDigit then .other (String.ofList ("CWE-".toList ++ number))
      else .other (String.ofList tag)

/-- The weakness of a stored tag; a blank tag is kept as it is. -/
def ofTag (raw : String) : Weakness :=
  (parse? raw).getD (.other raw)

/-- The weakness of a number in the catalogue. -/
def ofNumber (n : Nat) : Weakness :=
  ofTag (toString n)

end Weakness

end RepoAudit
