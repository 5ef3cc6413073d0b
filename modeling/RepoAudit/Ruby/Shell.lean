import RepoAudit.Text.Blank
import RepoAudit.Text.Lines
import RepoAudit.Text.Match

/-!
# Shell execution in Ruby source

A shell site is a call of `system` or `exec` without a receiver, or a command between backticks or
in a percent literal that has an interpolation. A site's input is the expression that feeds it.
Routing sends every site through the wrapper `safe_execute`. The guard of a site goes at the top of
the method around it, told by indentation, which is measured in bytes.
-/

namespace RepoAudit.Ruby

open RepoAudit.Text

/-- A line of source without its newline. -/
abbrev Line := List Char

/-- The quote of a command. -/
def backtick : Char := '\x60'

/-- The line that lists the allowed commands. -/
def allowList : List Char := "allowed_commands = ['update', 'check', 'create']".toList

/-- The start of the line that checks a command against the list. -/
def guardStart : List Char :=
  "raise ArgumentError, 'Invalid command' unless allowed_commands.include?(".toList

/-- The text by which a definition of the wrapper is known. -/
def wrapperMarker : List Char := "def safe_execute(".toList

/-- The definition of the wrapper. -/
def wrapperSource : List Char :=
  ("def safe_execute(command)\n" ++
    "  require 'open3'\n" ++
    "  argv = command.to_s.split\n" ++
    "  raise ArgumentError, 'Invalid command' if argv.empty?\n" ++
    "  stdout, status = Open3.capture2(*argv)\n" ++
    "  raise \"Command failed: #\x7bargv.first\x7d\" unless status.success?\n" ++
    "  stdout\n" ++
    "end\n").toList

/-- The name of the wrapper. -/
def wrapperName : List Char := "safe_execute".toList

/-- A place where a shell command is run. -/
structure Site where
  /-- Where it starts, in bytes. -/
  offset : Nat
  /-- The expression that feeds the command, if one can be told. -/
  input : Option (List Char)
deriving DecidableEq, Repr

/-- A call as recognised: the character before the name, the blanks and the bracket after it, and
the text that follows. -/
structure Call where
  /-- The character before the name; none at the start of the text. -/
  lead : List Char
  /-- The blanks after the name and the opening bracket. -/
  opening : List Char
  /-- What follows the opening bracket. -/
  rest : List Char

/-- The blanks and the bracket after the name of a shell function. -/
def callOpening? (cs : List Char) : Option (List Char × List Char) :=
  ["system".toList, "exec".toList].findSome? fun name =>
    (after? name cs).bind fun rest =>
      match trimStart rest with
      | '(' :: _ => some (name, indent rest ++ ['('])
      | _ => none

/-- A call that starts with the name itself or with one given character before it. -/
def callAfter? (lead cs : List Char) : Option (Call × Nat) :=
  (callOpening? cs).map fun (name, opening) =>
    let n := name.length + opening.length
    (⟨lead, opening, cs.drop n⟩, lead.length + n)

/-- Recognises a call of a shell function: at the start of the text, or after a character that is
neither a dot nor part of a word. -/
def shellCall : Recogniser Call := fun before cs =>
  let atStart := if before.isNone then callAfter? [] cs else none
  match atStart with
  | some found => some found
  | none =>
    match cs with
    | c :: rest => if c = '.' || isWord c then none else callAfter? [c] rest
    | [] => none

/-- How much of a text belongs to the body of a command that closes with `close` and has an
interpolation. The first part of the body is as long as it can be. -/
def bodyLength? (close : Char) : List Char → Option Nat
  | [] => none
  | c :: cs =>
    let later := if c = close || c = '\n' then none else (bodyLength? close cs).map (· + 1)
    match later with
    | some n => some n
    | none =>
      if c = '#' && cs.head? == some '{' then
        let inner := cs.tail.takeWhile fun d => d ≠ '}' && d ≠ '\n'
        match cs.tail.drop inner.length with
        | '}' :: rest =>
          let last := rest.takeWhile fun d => d ≠ close && d ≠ '\n'
          if (rest.drop last.length).head? == some close then some (inner.length + last.length + 3)
          else none
        | _ => none
      else none

/-- Recognises a command that opens with a given text, by its body. -/
def command (opening : List Char) (close : Char) : Recogniser (List Char) := fun _ cs =>
  (after? opening cs).bind fun rest =>
    (bodyLength? close rest).map fun n => (rest.take n, opening.length + n + 1)

/-- Recognises a command between backticks. -/
def backtickCommand : Recogniser (List Char) := command [backtick] backtick

/-- Recognises a command in a percent literal. -/
def percentCommand : Recogniser (List Char) := command "%x(".toList ')'

/-- Recognises an interpolation that is not empty and stays on its line. -/
def interpolation : Recogniser (List Char) := fun _ cs =>
  (after? ['#', '{'] cs).bind fun rest =>
    let inner := rest.takeWhile fun d => d ≠ '}' && d ≠ '\n'
    if inner.isEmpty || (rest.drop inner.length).head? != some '}' then none
    else some (inner, inner.length + 3)

/-- The expression of the first interpolation in a text. -/
def firstInterpolation? (cs : List Char) : Option (List Char) :=
  (firstMatch interpolation cs).map fun (_, inner) => trim inner

/-- The arguments of a call, from its opening bracket to the one that closes it, to the end of the
line outside any bracket, or to the end of the text. -/
def argumentsLength : Nat → List Char → Nat
  | _, [] => 0
  | depth, c :: cs =>
    if c = '(' then argumentsLength (depth + 1) cs + 1
    else if c = ')' then
      match depth with
      | 0 => 0
      | depth + 1 => argumentsLength depth cs + 1
    else if c = '\n' && depth = 0 then 0
    else argumentsLength depth cs + 1

/-- The expression that feeds a call: its first interpolation, or a first argument that is not a
literal. -/
def inputOfArguments? (arguments : List Char) : Option (List Char) :=
  match firstInterpolation? arguments with
  | some inner => some inner
  | none =>
    let first := trim (arguments.takeWhile (· ≠ ','))
    match first.head? with
    | none => none
    | some c => if c = '"' || c = '\'' || c = '%' then none else some first

/-- The first call of a shell function. -/
def firstCall? (content : List Char) : Option Site :=
  (firstMatch shellCall content).map fun (before, call) =>
    ⟨byteLength before + byteLength call.lead,
      inputOfArguments? (call.rest.take (argumentsLength 0 call.rest))⟩

/-- The first command of a kind. -/
def firstCommand? (r : Recogniser (List Char)) (content : List Char) : Option Site :=
  (firstMatch r content).map fun (before, body) => ⟨byteLength before, firstInterpolation? body⟩

/-- The earlier of two sites; the first of two at one place. -/
def earlier (a b : Option Site) : Option Site :=
  match a, b with
  | some x, some y => if y.offset < x.offset then some y else some x
  | some x, none => some x
  | none, b => b

/-- The first shell site of a text. -/
def firstSite? (content : List Char) : Option Site :=
  earlier (earlier (firstCall? content) (firstCommand? backtickCommand content))
    (firstCommand? percentCommand content)

/-- A call of the wrapper with a command as its text; quotes in the command are escaped. -/
def wrapCommand (body : List Char) : List Char :=
  wrapperName ++ ['(', '"'] ++ replaceAll ['"'] ['\\', '"'] body ++ ['"', ')']

/-- The text with every shell site sent through the wrapper. -/
def route (content : List Char) : List Char :=
  let calls := replaceMatches shellCall (fun c => c.lead ++ wrapperName ++ c.opening) content
  let quoted := replaceMatches backtickCommand wrapCommand calls
  replaceMatches percentCommand wrapCommand quoted

/-- The text after a keyword and the blanks that have to follow it. -/
def afterDef? (line : Line) : Option (List Char) :=
  (after? "def".toList (trimStart line)).bind fun rest =>
    if (indent rest).isEmpty then none else some (trimStart rest)

/-- The width of a line's indentation, in bytes. -/
def indentWidth (line : Line) : Nat :=
  byteLength (indent line)

/-- The nearest method line among the lines above, nearest first, that is indented less than
`bound`. -/
def methodAbove (bound : Nat) : List Line → Option Nat
  | [] => none
  | line :: above =>
    if (afterDef? line).isSome && indentWidth line < bound then some above.length
    else methodAbove bound above

/-- The line that opens the method around a line. -/
def enclosingDef? (lines : List Line) (index : Nat) : Option Nat :=
  methodAbove (indentWidth (lines.getD index [])) (lines.take index).reverse

/-- A character of a method's name. -/
def isMethodChar (c : Char) : Bool :=
  isWord c || c == '?' || c == '!' || c == '='

/-- The first plain parameter of a method line, with or without brackets around the parameters. -/
def firstParameter? (line : Line) : Option (List Char) :=
  (afterDef? line).bind fun rest =>
    let named := (after? "self.".toList rest).getD rest
    let tail := named.dropWhile isMethodChar
    if (named.takeWhile isMethodChar).isEmpty then none
    else
      let parameter? := match trimStart tail with
        | '(' :: inside => some (trimStart inside)
        | other => if (indent tail).isEmpty then none else some other
      parameter?.bind fun p =>
        match p with
        | c :: _ =>
          if c == '_' || ('a' ≤ c && c ≤ 'z') then some (p.takeWhile isWord) else none
        | [] => none

/-- The first parameter of the method around a line. -/
def methodParameter? (lines : List Line) (index : Nat) : Option (List Char) :=
  (enclosingDef? lines index).bind fun d => firstParameter? (lines.getD d [])

/-- Where the guard of a site goes, and its indentation: at the top of the method around it with
the indentation of its body, or directly above a site outside any method. -/
def guardSite (lines : List Line) (index : Nat) : Nat × List Char :=
  let here := (index, indent (lines.getD index []))
  match enclosingDef? lines index with
  | none => here
  | some d =>
    match (lines.take (index + 1)).drop (d + 1) |>.find? fun line => !isBlankText line with
    | some body => (d + 1, indent body)
    | none => here

end RepoAudit.Ruby
