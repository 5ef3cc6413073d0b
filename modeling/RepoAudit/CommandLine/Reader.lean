import RepoAudit.CommandLine.Basic
import RepoAudit.Text.Match

/-!
# Reading the command line

Arguments are read from left to right, and the first one that is wrong, or that asks for help or
the version, ends the reading. An option is given once at most, but one that may stand before the
verb may be given there and after it, and then the later one holds. After two hyphens every argument
is an operand.
-/

namespace RepoAudit.CommandLine

/-- What was given so far. -/
structure Given where
  /-- The options with their values; one without a value has the empty text. -/
  options : List (Opt × String)
  /-- The operands, in order. -/
  operands : List String

namespace Given

/-- Nothing. -/
def nothing : Given := ⟨[], []⟩

/-- The value of an option. -/
def value? (g : Given) (o : Opt) : Option String :=
  (g.options.find? fun e => e.1 == o).map (·.2)

/-- Whether an option was given. -/
def has (g : Given) (o : Opt) : Bool :=
  (g.value? o).isSome

/-- One more option. An option that is there already, and a value that it does not take, are
refused. -/
def giveOption (o : Opt) (value : String) (g : Given) : Except Stop Given :=
  if g.has o || !o.accepts value then .error .misused
  else .ok { g with options := g.options ++ [(o, value)] }

/-- One more operand, of which at most some are taken. -/
def giveOperand (most : Nat) (operand : String) (g : Given) : Except Stop Given :=
  if g.operands.length < most then .ok { g with operands := g.operands ++ [operand] }
  else .error .misused

/-- One more option that takes no value. Help and the version are answered at once. -/
def giveFlag (o : Opt) (g : Given) : Except Stop Given :=
  match o with
  | .help => .error .help
  | .version => .error .version
  | o => g.giveOption o ""

end Given

/-- What an argument amounts to. -/
inductive Reading where
  /-- It is complete. -/
  | done (g : Given)
  /-- The next argument is the value of an option. -/
  | needsValue (o : Opt) (g : Given)

/-- Reads an option by its long name, perhaps with its value after an equals sign. -/
def readLong (known : List Opt) (body : List Char) (g : Given) : Except Stop Reading :=
  let name := body.takeWhile (· ≠ '=')
  match known.find? fun o => o.long.toList == name with
  | none => .error .misused
  | some o =>
    match o.takesValue, body.drop name.length with
    | true, [] => .ok (.needsValue o g)
    | true, _ :: value => (g.giveOption o (String.ofList value)).map .done
    | false, [] => (g.giveFlag o).map .done
    | false, _ => .error .misused

/-- Reads options by their short names, which may stand together; the last one may have its value
behind it. -/
def readShort (known : List Opt) : List Char → Given → Except Stop Reading
  | [], g => .ok (.done g)
  | c :: cs, g =>
    match known.find? fun o => o.short? == some c with
    | none => .error .misused
    | some o =>
      if o.takesValue then
        match cs with
        | [] => .ok (.needsValue o g)
        | '=' :: value => (g.giveOption o (String.ofList value)).map .done
        | value => (g.giveOption o (String.ofList value)).map .done
      else
        match g.giveFlag o with
        | .ok g => readShort known cs g
        | .error e => .error e

/-- What an argument looks like. -/
inductive Shape where
  /-- Two hyphens: only operands follow. -/
  | escape
  /-- An option by its long name. -/
  | long (body : List Char)
  /-- Options by their short names. -/
  | short (names : List Char)
  /-- A word; a lone hyphen is one. -/
  | word

/-- The shape of an argument. -/
def shapeOf (argument : String) : Shape :=
  match argument.toList with
  | ['-', '-'] => .escape
  | '-' :: '-' :: body => .long body
  | ['-'] => .word
  | '-' :: names => .short names
  | _ => .word

/-- Reads the arguments after a verb that takes some options and operands. An argument that is the
value of an option is a word. -/
def readArguments (known : List Opt) (operands : Nat) :
    (waiting : Option Opt) → List String → Given → Except Stop Given
  | none, [], g => .ok g
  | some _, [], _ => .error .misused
  | waiting, a :: rest, g =>
    match shapeOf a, waiting with
    | .word, some o =>
      match g.giveOption o a with
      | .ok g => readArguments known operands none rest g
      | .error e => .error e
    | _, some _ => .error .misused
    | .word, none =>
      match g.giveOperand operands a with
      | .ok g => readArguments known operands none rest g
      | .error e => .error e
    | .escape, none => rest.foldlM (fun g a => g.giveOperand operands a) g
    | .long body, none =>
      match readLong known body g with
      | .ok (.done g) => readArguments known operands none rest g
      | .ok (.needsValue o g) => readArguments known operands (some o) rest g
      | .error e => .error e
    | .short names, none =>
      match readShort known names g with
      | .ok (.done g) => readArguments known operands none rest g
      | .ok (.needsValue o g) => readArguments known operands (some o) rest g
      | .error e => .error e

/-- The arguments after the verb that asks for help. -/
def readHelp (arguments : List String) : Stop :=
  match arguments with
  | [] => .help
  | [name] => if name = "help" || (Verb.ofName? name).isSome then .help else .misused
  | _ => .misused

/-- Reads the arguments before the verb, and those after it with what the verb takes. -/
def readLeading : (waiting : Option Opt) → List String → Given →
    Except Stop (Given × Verb × Given)
  | _, [], _ => .error .misused
  | waiting, a :: rest, g =>
    match shapeOf a, waiting with
    | .word, some o =>
      match g.giveOption o a with
      | .ok g => readLeading none rest g
      | .error e => .error e
    | _, some _ => .error .misused
    | .word, none =>
      if a = "help" then .error (readHelp rest)
      else
        match Verb.ofName? a with
        | none => .error .misused
        | some v =>
          (readArguments v.options v.operands none rest .nothing).map fun own => (g, v, own)
    | .escape, none => .error .misused
    | .long body, none =>
      match readLong leadingOptions body g with
      | .ok (.done g) => readLeading none rest g
      | .ok (.needsValue o g) => readLeading (some o) rest g
      | .error e => .error e
    | .short names, none =>
      match readShort leadingOptions names g with
      | .ok (.done g) => readLeading none rest g
      | .ok (.needsValue o g) => readLeading (some o) rest g
      | .error e => .error e

/-- What a verb with its own options and operands asks for; none if something it needs is missing.
A list of repositories in the environment stands in for one that is not given. -/
def requestOf? (repoList : Option String) (g : Given) : Verb → Option Request
  | .scan => g.operands.head?.map fun r => .scan r ((g.value? .profile).bind Profile.ofName?)
  | .fix => do some (.fix (← g.operands.head?) (← g.value? .repo))
  | .verify => do some (.verify (← g.operands.head?) (← g.value? .repo))
  | .commit => do some (.commit (← g.operands.head?) (← g.value? .repo))
  | .status => some (.status (g.value? .repo) (g.has .json))
  | .run =>
    some (.run ((g.value? .repos).orElse fun _ => repoList)
      ((g.value? .profile).bind Profile.ofName?))
  | .init => some (.init (g.has .force))

/-- Reads the arguments of a command line. -/
def read (repoList : Option String) (arguments : List String) : Except Stop Invocation :=
  match readLeading none arguments .nothing with
  | .error e => .error e
  | .ok (leading, verb, own) =>
    let path (o : Opt) : Option Path :=
      ((own.value? o).orElse fun _ => leading.value? o).map Path.mk
    match requestOf? repoList own verb with
    | some request => .ok ⟨path .config, path .store, request⟩
    | none => .error .misused

end RepoAudit.CommandLine
