import RepoAudit.Toml.Basic
import RepoAudit.Toml.Scalar

/-!
# Reading TOML

`read?` accepts exactly the documents whose lines are well formed and whose keys and headers agree
with each other. Arrays and tables between braces may run over several lines, may end with a comma,
and nest up to a limit.
-/

namespace RepoAudit.Toml

open RepoAudit.Text

/-- How deep arrays and tables between braces may nest. -/
def maxNesting : Nat := 80

/-- The text after spaces and tabs. -/
def skipSpace (cs : List Char) : List Char :=
  cs.dropWhile fun c => c = ' ' || c = '\t'

/-- Passes a comment up to the end of its line, if one starts here. -/
def skipComment? : List Char → Option (List Char)
  | '#' :: rest =>
    let body := rest.takeWhile fun c => c ≠ '\n'
    let tail := rest.drop body.length
    let text := if body.getLast? == some '\r' && !tail.isEmpty then body.dropLast else body
    if text.any isForbidden then none else some tail
  | cs => some cs

/-- Passes blanks, comments and newlines. -/
def skipLines? : Nat → List Char → Option (List Char)
  | 0, cs => some cs
  | fuel + 1, cs =>
    match skipSpace cs with
    | '#' :: rest => (skipComment? ('#' :: rest)).bind (skipLines? fuel)
    | '\n' :: rest => skipLines? fuel rest
    | '\r' :: '\n' :: rest => skipLines? fuel rest
    | rest => some rest

/-- Passes the end of a line: blanks, a comment, then a newline or the end of the text. -/
def endLine? (cs : List Char) : Option (List Char) :=
  (skipComment? (skipSpace cs)).bind fun rest =>
    if rest.isEmpty then some [] else afterNewline? rest

/-- Reads one part of a key. -/
def readKeyPart? (cs : List Char) : Option (String × List Char) :=
  match cs with
  | '"' :: '"' :: '"' :: _ => none
  | '\'' :: '\'' :: '\'' :: _ => none
  | '"' :: _ => (readString? cs).map fun (s, rest) => (String.ofList s, rest)
  | '\'' :: _ => (readString? cs).map fun (s, rest) => (String.ofList s, rest)
  | _ =>
    let name := cs.takeWhile isBareKey
    if name.isEmpty then none else some (String.ofList name, cs.drop name.length)

/-- Reads a key: parts with dots between them. -/
def readKey? : Nat → List Char → Option (List String × List Char)
  | 0, _ => none
  | fuel + 1, cs =>
    match readKeyPart? (skipSpace cs) with
    | none => none
    | some (part, rest) =>
      match skipSpace rest with
      | '.' :: tail => (readKey? fuel tail).map fun (parts, tail) => (part :: parts, tail)
      | tail => some ([part], tail)

/-- The parts of a key before the last one, and the last one. -/
def splitKey? (parts : List String) : Option (List String × String) :=
  parts.getLast?.map fun key => (parts.dropLast, key)

/-- Reads a bare word; a space may stand between a date and a time. -/
def readBare (cs : List Char) : List Char × List Char :=
  let word := cs.takeWhile isBareWord
  let rest := cs.drop word.length
  match readDate? word, rest with
  | some [], ' ' :: d :: tail =>
    if d.isDigit then
      let time := (d :: tail).takeWhile isBareWord
      (word ++ ' ' :: time, (d :: tail).drop time.length)
    else (word, rest)
  | _, _ => (word, rest)

mutual

/-- Reads a value that stands inside `depth` arrays or tables. -/
def readValue? : (fuel depth : Nat) → List Char → Option (Toml × List Char)
  | 0, _, _ => none
  | fuel + 1, depth, cs =>
    match cs with
    | '"' :: _ => (readString? cs).map fun (s, rest) => (.text (String.ofList s), rest)
    | '\'' :: _ => (readString? cs).map fun (s, rest) => (.text (String.ofList s), rest)
    | '[' :: rest =>
      if maxNesting ≤ depth then none
      else (readItems? fuel (depth + 1) rest).map fun (items, tail) => (.array false items, tail)
    | '{' :: rest =>
      if maxNesting ≤ depth then none
      else
        (readFields? fuel (depth + 1) [] rest).map fun (entries, tail) =>
          (.table .inline entries, tail)
    | _ =>
      let (word, rest) := readBare cs
      (bareValue? word).map fun v => (v, rest)

/-- Reads the items of an array and passes its closing bracket. -/
def readItems? : (fuel depth : Nat) → List Char → Option (List Toml × List Char)
  | 0, _, _ => none
  | fuel + 1, depth, cs =>
    match skipLines? cs.length cs with
    | none => none
    | some (']' :: rest) => some ([], rest)
    | some cs =>
      match readValue? fuel depth cs with
      | none => none
      | some (item, rest) =>
        match skipLines? rest.length rest with
        | some (',' :: tail) =>
          (readItems? fuel depth tail).map fun (items, tail) => (item :: items, tail)
        | some (']' :: tail) => some ([item], tail)
        | _ => none

/-- Reads the entries of a table between braces, given those before them, and passes its closing
brace. -/
def readFields? : (fuel depth : Nat) → Entries → List Char → Option (Entries × List Char)
  | 0, _, _, _ => none
  | fuel + 1, depth, entries, cs =>
    match skipLines? cs.length cs with
    | none => none
    | some ('}' :: rest) => some (entries, rest)
    | some cs =>
      match (readKey? (cs.length + 1) cs).bind fun (parts, rest) =>
          (splitKey? parts).map fun (path, key) => (path, key, skipSpace rest) with
      | some (path, key, '=' :: rest) =>
        match readValue? fuel depth (skipSpace rest) with
        | none => none
        | some (value, rest) =>
          match define path key value .headed entries with
          | none => none
          | some (_, entries) =>
            match skipLines? rest.length rest with
            | some (',' :: tail) => readFields? fuel depth entries tail
            | some ('}' :: tail) => some (entries, tail)
            | _ => none
      | _ => none

end

/-- A document that is being read: its tables so far, and the path of the open one. -/
structure Draft where
  /-- The entries of the document. -/
  entries : Entries
  /-- The path of the table that the last header opened. -/
  current : List String

/-- The draft with a change of its tables. -/
def Draft.change (d : Draft) (change : Change) : Option Draft :=
  (change .headed d.entries).map fun (_, entries) => { d with entries := entries }

/-- Reads the header of a table or of an item, after its first bracket. -/
def readHeader? (d : Draft) (cs : List Char) : Option (Draft × List Char) :=
  let (isItem, body) := match cs with
    | '[' :: rest => (true, rest)
    | rest => (false, rest)
  match readKey? (body.length + 1) body with
  | none => none
  | some (parts, rest) =>
    let closed? := match rest with
      | ']' :: tail =>
        if isItem then
          match tail with
          | ']' :: tail => some tail
          | _ => none
        else some tail
      | _ => none
    match closed?, splitKey? parts with
    | some tail, some (path, key) =>
      (d.change (if isItem then openItem path key else openTable path key)).map fun d =>
        ({ d with current := parts }, tail)
    | _, _ => none

/-- Reads a key and its value into the open table. -/
def readEntry? (d : Draft) (cs : List Char) : Option (Draft × List Char) := do
  let (parts, rest) ← readKey? (cs.length + 1) cs
  let (path, key) ← splitKey? parts
  let rest ← passChar? '=' rest
  let body := skipSpace rest
  let (value, tail) ← readValue? (2 * body.length + 2) 0 body
  let d ← d.change (changeAt false d.current (define path key value))
  some (d, tail)

/-- Reads the lines of a document. -/
def readLines? : Nat → Draft → List Char → Option Draft
  | 0, _, _ => none
  | fuel + 1, d, cs =>
    match skipLines? cs.length cs with
    | none => none
    | some [] => some d
    | some cs =>
      let step := match cs with
        | '[' :: rest => readHeader? d rest
        | _ => readEntry? d cs
      match step with
      | none => none
      | some (d, rest) => (endLine? rest).bind (readLines? fuel d)

/-- Reads a document. A byte order mark may stand before it. -/
def read? (s : String) : Option Entries :=
  let cs := match s.toList with
    | c :: rest => if c.toNat = 0xFEFF then rest else c :: rest
    | [] => []
  (readLines? (cs.length + 1) ⟨[], []⟩ cs).map (·.entries)

end RepoAudit.Toml
