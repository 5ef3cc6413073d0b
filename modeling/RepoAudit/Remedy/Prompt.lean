import RepoAudit.Python.Prompt
import RepoAudit.Remedy.Verdict

/-!
# Sanitizing prompts in Python

Every scope that builds a prompt from raw input gets statements that sanitize the input and reject
dangerous words, and its prompt lines are switched to the sanitized name.
-/

namespace RepoAudit.Remedy.Prompt

open RepoAudit.Text RepoAudit.Python

/-- The statements that sanitize the input, at a given indentation. -/
def preamble (indentation : List Char) : List Line :=
  let inner := indentation ++
    if indentation.contains '\t' then ['\t'] else [' ', ' ', ' ', ' ']
  [indentation ++ "import re".toList,
    indentation ++ sanitizedName ++
      " = re.sub(r\"[\\x00-\\x1f\\x7f;]\", \"\", str(user_input))".toList,
    indentation ++ "if any(keyword in ".toList ++ sanitizedName ++
      ".lower() for keyword in (\"ignore\", \"system\")):".toList,
    inner ++ guardRaise]

/-- Where preambles go, with their indentations: one for each prompt line without sanitized input
in its scope. -/
def preambleSites (lines : List Line) : List (Nat × List Char) :=
  ((promptLines lines).filter fun i => !isSanitizedBefore lines i).map (preambleSite lines)

/-- A line with the raw name switched to the sanitized one if it builds a prompt. -/
def switchName (line : Line) : Line :=
  if isRawPrompt line then replaceMatches (wholeWord rawName) (fun _ => sanitizedName) line
  else line

/-- The lines from number `index` on, with the preambles that go above them. -/
def insertPreambles (sites : List (Nat × List Char)) : (index : Nat) → List Line → List Line
  | _, [] => []
  | index, line :: lines =>
    let above := match sites.find? fun site => site.1 == index with
      | some site => preamble site.2
      | none => []
    above ++ switchName line :: insertPreambles sites (index + 1) lines

/-- The text with every raw prompt sanitized; none when there is no raw prompt. -/
def transform (content : List Char) : Option (List Char) :=
  let (lines, terminated) := splitLines content
  if (promptLines lines).isEmpty then none
  else some (joinLines (insertPreambles (preambleSites lines) 0 lines) terminated)

/-- Whether the input is sanitized and guarded, no raw prompt is left, and every prompt that uses
the sanitized input has it assigned. -/
def verify (content : List Char) : Verdict :=
  if !contains content sanitizedName then .failed "sanitized_input is not defined"
  else if !contains content guardRaise then
    .failed "no guard rejecting dangerous directives"
  else
    let lines := (splitLines content).1
    match firstPromptLine? lines with
    | some i => .failed ("line " ++ toString (i + 1) ++ " still builds the prompt from raw input")
    | none =>
      match undefinedUse? lines with
      | some i =>
        .failed ("line " ++ toString (i + 1) ++ " uses sanitized_input before it is defined")
      | none => .passed

end RepoAudit.Remedy.Prompt
