/-!
# Nesting in script text

Reading a script from left to right means knowing what stands around the current character: code
with its open brackets, a quoted string, a template, and what each of them is nested in. A string
or a template ends at its own quote; inside a template, a dollar sign and a brace open code that
the matching brace closes. `step` reads one character.
-/

namespace RepoAudit.Script

/-- The quote that opens and closes a template. -/
def backtick : Char := '\x60'

/-- What stands directly around a character. -/
inductive Frame where
  /-- Code, with its open round or square brackets and its open braces. -/
  | code (brackets braces : Nat)
  /-- A string, with the quote that closes it. -/
  | quoted (quote : Char)
  /-- A template. -/
  | template
deriving DecidableEq, Repr

/-- What stands around a character. -/
structure Nesting where
  /-- The innermost frame. -/
  frame : Frame
  /-- The frames around it, innermost first. -/
  outer : List Frame
  /-- Whether a backslash before the character takes its meaning. -/
  escaped : Bool
  /-- Whether a dollar sign of a template stands before the character. -/
  dollar : Bool
deriving DecidableEq, Repr

namespace Nesting

/-- What stands around the first character of an expression. -/
def start : Nesting := ⟨.code 0 0, [], false, false⟩

/-- The nesting with another frame inside. -/
def push (s : Nesting) (f : Frame) : Nesting :=
  ⟨f, s.frame :: s.outer, false, false⟩

/-- The nesting without its innermost frame; the outermost one stays. -/
def pop (s : Nesting) : Nesting :=
  match s.outer with
  | f :: fs => ⟨f, fs, false, false⟩
  | [] => { s with escaped := false, dollar := false }

/-- The nesting with its innermost frame changed. -/
def reframe (s : Nesting) (f : Frame) : Nesting :=
  ⟨f, s.outer, false, false⟩

/-- Whether the character stands in the expression's own code, outside any bracket. -/
def isFlat (s : Nesting) : Bool :=
  s.frame == .code 0 0 && s.outer.isEmpty

/-- Reads one character of code with some open brackets and braces. A bracket that closes nothing
has no effect, and a brace that closes nothing ends the code inside a template. -/
def stepCode (s : Nesting) (brackets braces : Nat) (c : Char) : Nesting :=
  if c = '\'' || c = '"' then s.push (.quoted c)
  else if c = backtick then s.push .template
  else if c = '(' || c = '[' then s.reframe (.code (brackets + 1) braces)
  else if c = ')' || c = ']' then s.reframe (.code (brackets - 1) braces)
  else if c = '{' then s.reframe (.code brackets (braces + 1))
  else if c = '}' then
    match braces with
    | 0 => s.pop
    | braces + 1 => s.reframe (.code brackets braces)
  else s

/-- Reads one character. `lineBound` says that a string also ends with its line. -/
def step (lineBound : Bool) (s : Nesting) (c : Char) : Nesting :=
  if s.escaped then { s with escaped := false }
  else
    match s.frame with
    | .quoted quote =>
      if c = '\\' then { s with escaped := true }
      else if c = quote || (lineBound && c = '\n') then s.pop
      else s
    | .template =>
      if s.dollar && c = '{' then s.push (.code 0 0)
      else if c = '\\' then { s with escaped := true, dollar := false }
      else if c = backtick then s.pop
      else { s with dollar := c = '$' }
    | .code brackets braces => s.stepCode brackets braces c

end Nesting

end RepoAudit.Script
