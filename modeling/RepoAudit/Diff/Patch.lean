import RepoAudit.Diff.Tidy
import RepoAudit.Text.Match

/-!
# Unified patches

A patch shows the changes between two texts in hunks, each with up to three unchanged lines around
its changes, under a header that names the file on both sides. Lines end at a newline, a carriage
return, or both; a last line without an end is marked.
-/

namespace RepoAudit.Diff

open RepoAudit.Text

/-- The lines of a text with their ends. `held` is the start of the current line in reverse. -/
def linesFrom (held : List Char) : List Char → List (List Char)
  | [] => if held.isEmpty then [] else [held.reverse]
  | '\r' :: '\n' :: cs => ('\n' :: '\r' :: held).reverse :: linesFrom [] cs
  | c :: cs =>
    if c = '\r' || c = '\n' then (c :: held).reverse :: linesFrom [] cs
    else linesFrom (c :: held) cs

/-- The lines of a text with their ends. -/
def linesOf (cs : List Char) : List (List Char) :=
  linesFrom [] cs

/-- How many unchanged lines stand around a change. -/
def contextSize : Nat := 3

/-- The script without the part of its first kept run that is too far from a change. -/
def cropFirst : Script → Script
  | .keep old new size :: rest =>
    let n := size - contextSize
    .keep (old + n) (new + n) (size - n) :: rest
  | script => script

/-- The script without the part of its last kept run that is too far from a change. -/
def cropLast (script : Script) : Script :=
  match script.reverse with
  | .keep old new size :: rest => (Edit.keep old new (min size contextSize) :: rest).reverse
  | _ => script

/-- The script cut into hunks where more than twice the context is kept. `held` is the current
hunk in reverse. -/
def hunksFrom (held : List Edit) : Script → List (List Edit)
  | [] =>
    match held with
    | [] => []
    | [.keep _ _ _] => []
    | _ => [held.reverse]
  | .keep old new size :: rest =>
    if 2 * contextSize < size then
      let n := size - contextSize
      (Edit.keep old new contextSize :: held).reverse ::
        hunksFrom [.keep (old + n) (new + n) (size - n)] rest
    else hunksFrom (.keep old new size :: held) rest
  | e :: rest => hunksFrom (e :: held) rest

/-- The hunks of a script. -/
def hunks (script : Script) : List (List Edit) :=
  hunksFrom [] (cropLast (cropFirst script))

/-- A range of lines in a hunk's header: where it starts, from one, and how many lines it has
unless that is one. An empty range starts on the line before it. -/
def writeRange (start stop : Nat) : List Char :=
  let size := stop - start
  if size = 1 then Nat.toDigits 10 (start + 1)
  else
    Nat.toDigits 10 (if size = 0 then start else start + 1) ++ ',' :: Nat.toDigits 10 size

/-- The header of a hunk. -/
def writeHeader (first last : Edit) : List Char :=
  "@@ -".toList ++ writeRange first.oldStart last.oldStop ++ " +".toList ++
    writeRange first.newStart last.newStop ++ " @@\n".toList

/-- The mark after a line that has no end. -/
def endMark (line : List Char) : List Char :=
  match line.getLast? with
  | some '\n' => []
  | some '\r' => []
  | _ => "\n\\ No newline at end of file\n".toList

/-- A line of a hunk, with the sign of its side. -/
def writeLine (sign : Char) (line : List Char) : List Char :=
  sign :: line ++ endMark line

/-- Lines of a hunk, with the sign of their side. -/
def writeLines (sign : Char) (lines : List (List Char)) : List Char :=
  lines.flatMap (writeLine sign)

/-- The lines of an edit in a hunk. -/
def writeEdit (olds news : Array (List Char)) : Edit → List Char
  | .keep old _ size => writeLines ' ' (window olds old size)
  | .delete old _ size => writeLines '-' (window olds old size)
  | .insert _ new size => writeLines '+' (window news new size)
  | .replace old new oldSize newSize =>
    writeLines '-' (window olds old oldSize) ++ writeLines '+' (window news new newSize)

/-- A hunk. -/
def writeHunk (olds news : Array (List Char)) (edits : List Edit) : List Char :=
  match edits.head?, edits.getLast? with
  | some first, some last => writeHeader first last ++ edits.flatMap (writeEdit olds news)
  | _, _ => []

/-- The hunks of the changes from one text to another, under the names of both sides. -/
def writeBody (path before after : List Char) : List Char :=
  let olds := linesOf before
  let news := linesOf after
  match hunks (script olds news) with
  | [] => []
  | hunks =>
    "--- a/".toList ++ path ++ "\n+++ b/".toList ++ path ++ '\n' ::
      hunks.flatMap (writeHunk olds.toArray news.toArray)

/-- The patch of one file from one text to another. -/
def patch (path : String) (before after : List Char) : List Char :=
  let shown := path.toList.map fun c => if c = '\\' then '/' else c
  "diff --git a/".toList ++ shown ++ " b/".toList ++ shown ++ '\n' :: writeBody shown before after

end RepoAudit.Diff
