import RepoAudit.Path
import RepoAudit.Profile

/-!
# The command line

What can be asked for on the command line, and how it is written: a verb, its operands, and
options, some of which may stand before the verb as well.
-/

namespace RepoAudit.CommandLine

/-- An option. -/
inductive Opt where
  /-- The configuration file. -/
  | config
  /-- The directory of the store. -/
  | store
  /-- Whether to say more. -/
  | verbose
  /-- Asks for help. -/
  | help
  /-- Asks for the version. -/
  | version
  /-- The profile of a scan. -/
  | profile
  /-- A repository. -/
  | repo
  /-- A list of repositories. -/
  | repos
  /-- Whether to print JSON. -/
  | json
  /-- Whether to overwrite. -/
  | force
deriving DecidableEq, Repr

namespace Opt

/-- The long name, after two hyphens. -/
def long : Opt → String
  | .config => "config"
  | .store => "store"
  | .verbose => "verbose"
  | .help => "help"
  | .version => "version"
  | .profile => "profile"
  | .repo => "repo"
  | .repos => "repos"
  | .json => "json"
  | .force => "force"

/-- The short name, after one hyphen. -/
def short? : Opt → Option Char
  | .config => some 'c'
  | .verbose => some 'v'
  | .help => some 'h'
  | .version => some 'V'
  | _ => none

/-- Whether the option takes a value. -/
def takesValue : Opt → Bool
  | .config | .store | .profile | .repo | .repos => true
  | .verbose | .help | .version | .json | .force => false

/-- Whether a text is a value of the option: a path is not empty, and a profile has a name. -/
def accepts (value : String) : Opt → Bool
  | .config | .store => !value.isEmpty
  | .profile => (Profile.ofName? value).isSome
  | _ => true

end Opt

/-- What a command does. -/
inductive Verb where
  | scan
  | fix
  | verify
  | commit
  | status
  | run
  | init
deriving DecidableEq, Repr

namespace Verb

/-- Every verb. -/
def all : List Verb := [.scan, .fix, .verify, .commit, .status, .run, .init]

/-- The name of a verb. -/
def name : Verb → String
  | .scan => "scan"
  | .fix => "fix"
  | .verify => "verify"
  | .commit => "commit"
  | .status => "status"
  | .run => "run"
  | .init => "init"

/-- The verb of a name. -/
def ofName? (s : String) : Option Verb :=
  all.find? fun v => v.name == s

/-- The options that every verb takes. -/
def commonOptions : List Opt := [.config, .store, .verbose, .help]

/-- The options of its own that a verb takes. -/
def ownOptions : Verb → List Opt
  | .scan => [.profile]
  | .fix | .verify | .commit => [.repo]
  | .status => [.repo, .json]
  | .run => [.repos, .profile]
  | .init => [.force]

/-- The options that a verb takes. -/
def options (v : Verb) : List Opt :=
  v.ownOptions ++ commonOptions

/-- How many operands a verb takes; it needs all of them. -/
def operands : Verb → Nat
  | .scan | .fix | .verify | .commit => 1
  | .status | .run | .init => 0

end Verb

/-- The options that may stand before the verb. -/
def leadingOptions : List Opt := .version :: Verb.commonOptions

/-- What is asked for. -/
inductive Request where
  /-- To scan a repository. -/
  | scan (repository : String) (profile : Option Profile)
  /-- To repair an issue of a repository. -/
  | fix (id repository : String)
  /-- To check an issue of a repository. -/
  | verify (id repository : String)
  /-- To commit an issue of a repository. -/
  | commit (id repository : String)
  /-- To list the issues of one repository, or of all, as a table or as JSON. -/
  | status (repository : Option String) (json : Bool)
  /-- To run over a list of repositories. -/
  | run (repositories : Option String) (profile : Option Profile)
  /-- To write a configuration, over another one on request. -/
  | init (force : Bool)
deriving DecidableEq, Repr

/-- A command line that was understood. -/
structure Invocation where
  /-- The configuration file. -/
  config : Option Path
  /-- The directory of the store. -/
  store : Option Path
  /-- What is asked for. -/
  request : Request
deriving DecidableEq, Repr

/-- Why a command line asks for nothing. -/
inductive Stop where
  /-- It is not well formed. -/
  | misused
  /-- It asks for help. -/
  | help
  /-- It asks for the version. -/
  | version
deriving DecidableEq, Repr

end RepoAudit.CommandLine
