import RepoAudit.Text.Offset

/-!
# Lines

Three ways to read a text as lines. `splitLines` cuts at newlines alone and remembers whether the
last line was terminated, so that `joinLines` undoes it. `rows` also drops the carriage return of
a terminated line. `splitTerminated` keeps each line's newline. `lineAt?` numbers the line of a
byte offset from one.
-/

namespace RepoAudit.Text

/-- Puts a character in front of the first part. -/
def consFirst {α : Type} (a : α) : List (List α) → List (List α)
  | [] => [[a]]
  | part :: parts => (a :: part) :: parts

/-- The parts of a text between the separators, at least one. -/
def splitOn (separator : Char) : List Char → List (List Char)
  | [] => [[]]
  | c :: cs =>
    if c = separator then [] :: splitOn separator cs else consFirst c (splitOn separator cs)

/-- Whether the text ends with a newline. -/
def isTerminated (cs : List Char) : Bool :=
  cs.getLast? == some '\n'

/-- The lines of a text, and whether its last line was terminated by a newline. -/
def splitLines (cs : List Char) : List (List Char) × Bool :=
  if isTerminated cs then (splitOn '\n' cs.dropLast, true) else (splitOn '\n' cs, false)

/-- The text of some lines, the last one terminated on request. -/
def joinLines (lines : List (List Char)) (terminated : Bool) : List Char :=
  ['\n'].intercalate lines ++ if terminated then ['\n'] else []

/-- The lines of a text, each with its newline; the empty text has none. -/
def splitTerminated : List Char → List (List Char)
  | [] => []
  | c :: cs =>
    if c = '\n' then [c] :: splitTerminated cs else consFirst c (splitTerminated cs)

/-- A line without its terminator, a newline that may follow a carriage return. -/
def withoutTerminator (line : List Char) : List Char :=
  if line.getLast? = some '\n' then
    let body := line.dropLast
    if body.getLast? = some '\r' then body.dropLast else body
  else line

/-- The lines of a text without their terminators; nothing follows a final newline. -/
def rows (cs : List Char) : List (List Char) :=
  (splitTerminated cs).map withoutTerminator

/-- The number, from one, of the line that follows a given text. -/
def lineAfter (lead : List Char) : Nat :=
  lead.count '\n' + 1

/-- The number, from one, of the line that holds a byte offset. -/
def lineAt? (cs : List Char) (offset : Nat) : Option Nat :=
  (cutAt? offset cs).map fun (lead, _) => lineAfter lead

end RepoAudit.Text
