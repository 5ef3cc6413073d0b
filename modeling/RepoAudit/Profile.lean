/-!
# Scan profiles

A profile names the checks of one weakness family, or all of them. Without a request, profiles
take turns in a fixed rotation, which `all` restarts.
-/

namespace RepoAudit

/-- Which checks a scan runs. -/
inductive Profile where
  | markup
  | prompt
  | dependency
  | command
  | all
deriving DecidableEq, Repr

namespace Profile

/-- Every profile. -/
def every : List Profile := [.markup, .prompt, .dependency, .command, .all]

/-- The name of a profile. -/
def name : Profile → String
  | .markup => "xss"
  | .prompt => "prompt-injection"
  | .dependency => "dependency"
  | .command => "remote-code-execution"
  | .all => "all"

/-- A second, shorter name. -/
def alias? : Profile → Option String
  | .prompt => some "prompt"
  | .dependency => some "deps"
  | .command => some "rce"
  | _ => none

/-- The profile of a name or a second name. -/
def ofName? (s : String) : Option Profile :=
  every.find? fun p => p.name == s || p.alias? == some s

/-- Whether a profile runs the checks of another. -/
def covers (p q : Profile) : Bool :=
  p == .all || p == q

/-- The profiles that take turns. -/
def rotation : List Profile := [.markup, .prompt, .dependency, .command]

/-- The profile whose turn it is after the last one. -/
def nextAfter : Option Profile → Profile
  | some .markup => .prompt
  | some .prompt => .dependency
  | some .dependency => .command
  | some .command => .markup
  | some .all => .markup
  | none => .markup

end Profile

end RepoAudit
