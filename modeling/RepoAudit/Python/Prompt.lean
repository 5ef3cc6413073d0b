import RepoAudit.Text.Blank
import RepoAudit.Text.Lines
import RepoAudit.Text.Match

/-!
# Prompts in Python source

A prompt line assigns `prompt` from raw `user_input`, by concatenation or by an interpolation. The
scope of a line is the nearest `def` above it whose body it stands in, told by indentation, which
is measured in bytes. Lines are numbered from zero within a list of lines.
-/

namespace RepoAudit.Python

open RepoAudit.Text

/-- A line of source without its newline. -/
abbrev Line := List Char

/-- The name that holds what a user typed. -/
def rawName : List Char := "user_input".toList

/-- The name that holds the sanitized input. -/
def sanitizedName : List Char := "sanitized_input".toList

/-- The statement that rejects dangerous input. -/
def guardRaise : List Char := "raise ValueError(\"Invalid request detected\")".toList

/-- The names that mark a module as talking to a language model. -/
def clientMarkers : List String := ["openai", "anthropic", "langchain", "litellm"]

/-- Whether a text mentions a language model's client. -/
def mentionsClient (content : List Char) : Bool :=
  clientMarkers.any fun m => contains content m.toList

/-- What a line assigns to a name: the text after the name and its equals sign, if the line starts
with them. -/
def assigned? (name : List Char) (line : Line) : Option (List Char) :=
  (after? name (trimStart line)).bind fun rest => after? ['='] (trimStart rest)

/-- Whether a text starts with a plus sign and the raw input. -/
def startsWithAddition (cs : List Char) : Bool :=
  match cs with
  | '+' :: rest =>
    match after? rawName (trimStart rest) with
    | some tail => !continuesWord tail.head?
    | none => false
  | _ => false

/-- Whether a text starts with the raw input between braces. -/
def startsWithInterpolation (cs : List Char) : Bool :=
  match cs with
  | '{' :: rest =>
    match after? rawName (trimStart rest) with
    | some tail => (trimStart tail).head? == some '}'
    | none => false
  | _ => false

/-- Recognises raw input that is added or interpolated. -/
def rawUse : Recogniser Unit := fun _ cs =>
  if startsWithAddition cs || startsWithInterpolation cs then some ((), 1) else none

/-- Whether a line builds a prompt from raw input. -/
def isRawPrompt (line : Line) : Bool :=
  match assigned? "prompt".toList line with
  | some value => matchesAnywhere rawUse value
  | none => false

/-- Whether a line assigns a prompt that uses the sanitized input. -/
def isSanitizedPrompt (line : Line) : Bool :=
  match assigned? "prompt".toList line with
  | some value => matchesAnywhere (wholeWord sanitizedName) value
  | none => false

/-- Whether a line assigns the sanitized input. -/
def definesSanitized (line : Line) : Bool :=
  match assigned? sanitizedName line with
  | some (c :: _) => c != '='
  | _ => false

/-- The text after a keyword and the blanks that have to follow it. -/
def afterKeyword? (keyword : List Char) (cs : List Char) : Option (List Char) :=
  (after? keyword cs).bind fun rest => if (indent rest).isEmpty then none else some (trimStart rest)

/-- Whether a line opens a function. -/
def isDef (line : Line) : Bool :=
  let t := trimStart line
  let body := (afterKeyword? "async".toList t).getD t
  match afterKeyword? "def".toList body with
  | some name => continuesWord name.head?
  | none => false

/-- The width of a line's indentation, in bytes. -/
def indentWidth (line : Line) : Nat :=
  byteLength (indent line)

/-- Whether a line says nothing about scope: it is blank, a comment, or closes a bracket. -/
def isTransparent (line : Line) : Bool :=
  match (trimStart line).head? with
  | none => true
  | some c => c == '#' || c == ')' || c == ']' || c == '}'

/-- The nearest function line among the lines above, nearest first, that is indented less than
`bound`, passing ever less indented lines. A line without indentation ends the search. -/
def scopeAbove (bound : Nat) : List Line → Option Nat
  | [] => none
  | line :: above =>
    if isTransparent line || bound ≤ indentWidth line then scopeAbove bound above
    else if isDef line then some above.length
    else if indentWidth line = 0 then none
    else scopeAbove (indentWidth line) above

/-- The line that opens the function whose body holds a line. -/
def enclosingDef? (lines : List Line) (index : Nat) : Option Nat :=
  scopeAbove (indentWidth (lines.getD index [])) (lines.take index).reverse

/-- The numbers of the lines that build a prompt from raw input. -/
def promptLines (lines : List Line) : List Nat :=
  (List.range lines.length).filter fun i => isRawPrompt (lines.getD i [])

/-- The first line that builds a prompt from raw input. -/
def firstPromptLine? (lines : List Line) : Option Nat :=
  lines.findIdx? isRawPrompt

/-- Whether the sanitized input is assigned above a line, in its own scope. -/
def isSanitizedBefore (lines : List Line) (index : Nat) : Bool :=
  (List.range index).any fun i =>
    definesSanitized (lines.getD i []) && enclosingDef? lines i == enclosingDef? lines index

/-- The first prompt line that uses the sanitized input without an assignment above it. -/
def undefinedUse? (lines : List Line) : Option Nat :=
  (List.range lines.length).find? fun i =>
    isSanitizedPrompt (lines.getD i []) && !isSanitizedBefore lines i

/-- A line up to its comment, without trailing blanks. -/
def withoutComment (line : Line) : Line :=
  trimEnd (line.takeWhile (· ≠ '#'))

/-- The numbers from `start` on, up to and without `stop`. -/
def between (start stop : Nat) : List Nat :=
  (List.range (stop - start)).map (start + ·)

/-- The marks that open and close a documentation string. -/
def docQuotes : List (List Char) := [['"', '"', '"'], ['\'', '\'', '\'']]

/-- The line after the documentation string that starts a function's body, and the first line of
the body if none does. A string that is not closed up to `limit` is none. -/
def afterDocstring (lines : List Line) (body limit : Nat) : Nat :=
  let first := trimStart (lines.getD body [])
  match docQuotes.find? (startsWith first) with
  | none => body
  | some quote =>
    if 6 ≤ byteLength first && contains (first.drop 3) quote then body + 1
    else
      match (between (body + 1) (limit + 1)).find? fun i => contains (lines.getD i []) quote with
      | some close => close + 1
      | none => body

/-- Whether a line ends with a colon, comments aside. -/
def endsWithColon (line : Line) : Bool :=
  (withoutComment line).getLast? == some ':'

/-- Where the statements that sanitize the input of a prompt line go, and their indentation: at
the top of the function's body, or directly above a prompt line outside any function. -/
def preambleSite (lines : List Line) (index : Nat) : Nat × List Char :=
  let here := (index, indent (lines.getD index []))
  match enclosingDef? lines index with
  | none => here
  | some start =>
    match (between start index).find? fun i => endsWithColon (lines.getD i []) with
    | none => here
    | some signatureEnd =>
      let body? := (between (signatureEnd + 1) (index + 1)).find? fun i =>
        !isBlankText (lines.getD i [])
      match body? with
      | none => here
      | some body => (afterDocstring lines body index, indent (lines.getD body []))

end RepoAudit.Python
