import RepoAudit.Json.Basic

/-!
# Writing JSON

The pretty form puts every item and entry on a line of its own, indented by two spaces a level;
an empty array or object stays on one line. The compact form has no blanks at all. Strings escape
quotes, backslashes and the ASCII controls and write everything else as it is.
-/

namespace RepoAudit.Json

/-- A hexadecimal digit. -/
def hexDigit (n : Nat) : Char :=
  if n < 10 then Char.ofNat (48 + n) else Char.ofNat (87 + n)

/-- The written form of a character inside a string. -/
def escape (c : Char) : List Char :=
  if c = '"' then ['\\', '"']
  else if c = '\\' then ['\\', '\\']
  else if c = '\n' then ['\\', 'n']
  else if c = '\r' then ['\\', 'r']
  else if c = '\t' then ['\\', 't']
  else if c.toNat = 8 then ['\\', 'b']
  else if c.toNat = 12 then ['\\', 'f']
  else if c.toNat < 32 then ['\\', 'u', '0', '0', hexDigit (c.toNat / 16), hexDigit (c.toNat % 16)]
  else [c]

/-- The written form of a string. -/
def quote (cs : List Char) : List Char :=
  '"' :: cs.flatMap escape ++ ['"']

/-- The written form of a string that may be no text. -/
def quoted (s : Option String) : List Char :=
  quote (s.getD "").toList

/-- A new line at a level of indentation. -/
def newLine (level : Nat) : List Char :=
  '\n' :: List.replicate (2 * level) ' '

mutual

/-- The pretty form of a value that starts at a level of indentation. -/
def prettyAt (level : Nat) : Json → List Char
  | .null => ['n', 'u', 'l', 'l']
  | .bool true => ['t', 'r', 'u', 'e']
  | .bool false => ['f', 'a', 'l', 's', 'e']
  | .number digits => digits
  | .string s => quoted s
  | .array [] => ['[', ']']
  | .array (j :: js) =>
    '[' :: newLine (level + 1) ++ prettyAt (level + 1) j ++ prettyItems (level + 1) js ++
      newLine level ++ [']']
  | .object [] => ['{', '}']
  | .object ((k, j) :: es) =>
    '{' :: newLine (level + 1) ++ quoted k ++ [':', ' '] ++ prettyAt (level + 1) j ++
      prettyEntries (level + 1) es ++ newLine level ++ ['}']

/-- The pretty form of the items after the first. -/
def prettyItems (level : Nat) : List Json → List Char
  | [] => []
  | j :: js => ',' :: newLine level ++ prettyAt level j ++ prettyItems level js

/-- The pretty form of the entries after the first. -/
def prettyEntries (level : Nat) : List (Option String × Json) → List Char
  | [] => []
  | (k, j) :: es =>
    ',' :: newLine level ++ quoted k ++ [':', ' '] ++ prettyAt level j ++ prettyEntries level es

end

mutual

/-- The compact form of a value. -/
def compactChars : Json → List Char
  | .null => ['n', 'u', 'l', 'l']
  | .bool true => ['t', 'r', 'u', 'e']
  | .bool false => ['f', 'a', 'l', 's', 'e']
  | .number digits => digits
  | .string s => quoted s
  | .array [] => ['[', ']']
  | .array (j :: js) => '[' :: compactChars j ++ compactItems js ++ [']']
  | .object [] => ['{', '}']
  | .object ((k, j) :: es) =>
    '{' :: quoted k ++ ':' :: compactChars j ++ compactEntries es ++ ['}']

/-- The compact form of the items after the first. -/
def compactItems : List Json → List Char
  | [] => []
  | j :: js => ',' :: compactChars j ++ compactItems js

/-- The compact form of the entries after the first. -/
def compactEntries : List (Option String × Json) → List Char
  | [] => []
  | (k, j) :: es => ',' :: quoted k ++ ':' :: compactChars j ++ compactEntries es

end

/-- The pretty form of a document. -/
def pretty (j : Json) : String :=
  String.ofList (prettyAt 0 j)

/-- The compact form of a document. -/
def compact (j : Json) : String :=
  String.ofList (compactChars j)

end RepoAudit.Json
