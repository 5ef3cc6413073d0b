import RepoAudit.Script.Expression
import RepoAudit.Text.Lines

/-!
# Markup sinks

A sink is an assignment to `innerHTML` or `outerHTML`. Its right-hand side runs to the end of the
statement, as far as that can be told from brackets, strings and lines. Sinks are found from left
to right and given by the byte offsets of their right-hand sides. The prologue of a script is the
shebang line and the directives before its first statement.
-/

namespace RepoAudit.Script

open RepoAudit.Text

/-- An assignment of markup. -/
structure Sink where
  /-- Where its right-hand side starts, in bytes. -/
  start : Nat
  /-- Where its right-hand side ends, in bytes. -/
  stop : Nat
  /-- The line of the assignment, from one. -/
  line : Nat
  /-- Its right-hand side. -/
  expression : List Char
deriving DecidableEq, Repr

/-- The properties that take markup. -/
def sinkProperties : List String := ["innerHTML", "outerHTML"]

/-- The rest of a text after a property's name, blanks, an optional plus sign and an equals
sign. -/
def afterAssignment? (cs : List Char) : Option (List Char) :=
  sinkProperties.findSome? fun property =>
    (after? property.toList cs).bind fun rest =>
      match trimStart rest with
      | '+' :: '=' :: tail => some tail
      | '=' :: tail => some tail
      | _ => none

/-- Recognises the assignment of a property up to its equals sign, and yields what follows. -/
def assignment : Recogniser (List Char) := fun before cs =>
  if continuesWord before then none
  else (afterAssignment? cs).map fun rest => (rest, cs.length - rest.length)

/-- Whether an expression goes on after a newline: the line before it is blank or ends with a plus
sign, or the text after it starts with one. -/
def goesOn (read : List Char) (rest : List Char) : Bool :=
  let before := read.dropWhile isBlank
  before.isEmpty || before.head? == some '+' || (trimStart rest).head? == some '+'

/-- Whether an expression ends before a character, given the characters read so far in reverse. -/
def endsBefore (s : Nesting) (read : List Char) (c : Char) (rest : List Char) : Bool :=
  match s.frame, s.outer with
  | .code brackets braces, [] =>
    ((c = ')' || c = ']') && brackets = 0) || (c = '}' && braces = 0) ||
      (s.isFlat && (c = ';' || c = ',' || (c = '\n' && !goesOn read rest)))
  | _, _ => false

/-- How many characters of a text belong to the expression that it goes on with. -/
def extentFrom (s : Nesting) (read : List Char) : List Char → Nat
  | [] => 0
  | c :: cs => if endsBefore s read c cs then 0 else extentFrom (s.step true c) (c :: read) cs + 1

/-- The expression at the start of a text. -/
def expressionAt (cs : List Char) : List Char :=
  cs.take (extentFrom .start [] cs)

/-- The sink whose equals sign ends at a byte offset, given the text that follows. A second equals
sign makes it a comparison, and nothing is assigned by an empty expression. -/
def sinkAfter? (offset line : Nat) (rest : List Char) : Option Sink :=
  if rest.head? == some '=' then none
  else
    let body := trimStart rest
    let expression := trimEnd (expressionAt body)
    let start := offset + byteLength (indent rest)
    if expression.isEmpty then none
    else some ⟨start, start + byteLength expression, line, expression⟩

/-- The sinks of some pieces of a text, given the bytes and the line before them. -/
def sinksOf (offset line : Nat) : List (Piece (List Char)) → List Sink
  | [] => []
  | .plain c :: ps => sinksOf (offset + c.utf8Size) (if c = '\n' then line + 1 else line) ps
  | .found rest text :: ps =>
    let next := offset + byteLength text
    (sinkAfter? next line rest).toList ++ sinksOf next (line + text.count '\n') ps

/-- The sinks of a text, in order. -/
def sinks (cs : List Char) : List Sink :=
  sinksOf 0 1 (pieces assignment cs)

/-- The sinks whose right-hand side needs escaping. -/
def unsafeSinks (cs : List Char) : List Sink :=
  (sinks cs).filter fun s => needsEscaping s.expression

/-- The first sink whose right-hand side needs escaping. -/
def firstUnsafeSink? (cs : List Char) : Option Sink :=
  (sinks cs).find? fun s => needsEscaping s.expression

/-- Whether a line is a directive, such as the one that asks for strict mode. -/
def isDirective (line : List Char) : Bool :=
  let t := trim line
  (startsWith t "'use ".toList || startsWith t "\"use ".toList) &&
    (t.getLast? == some ';' || t.getLast? == some '\'' || t.getLast? == some '"')

/-- The lines of the prologue, given whether the first line of the text comes next. -/
def prologueOf : (first : Bool) → List (List Char) → List (List Char)
  | _, [] => []
  | first, line :: lines =>
    if (first && startsWith (trim line) "#!".toList) || isDirective line then
      line :: prologueOf false lines
    else []

/-- The shebang line and the directives at the start of a script. -/
def prologue (cs : List Char) : List Char :=
  (prologueOf true (splitTerminated cs)).flatten

end RepoAudit.Script
