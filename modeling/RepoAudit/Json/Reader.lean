import RepoAudit.Json.Basic

/-!
# Reading JSON

`read?` accepts exactly the documents of the JSON grammar: one value, blanks around its tokens,
nothing after it. A string's escapes are decoded on the way.
-/

namespace RepoAudit.Json

open RepoAudit.Text

/-- The blanks that JSON allows between tokens. -/
def isGap (c : Char) : Bool :=
  c == ' ' || c == '\n' || c == '\t' || c == '\r'

/-- The text after the blanks at its start. -/
def skipGap (cs : List Char) : List Char :=
  cs.dropWhile isGap

/-- The value of a hexadecimal digit. -/
def hexValue? (c : Char) : Option Nat :=
  if '0' ≤ c && c ≤ '9' then some (c.toNat - 48)
  else if 'a' ≤ c && c ≤ 'f' then some (c.toNat - 87)
  else if 'A' ≤ c && c ≤ 'F' then some (c.toNat - 55)
  else none

/-- The value of four hexadecimal digits, and the text after them. -/
def readHex4? : List Char → Option (Nat × List Char)
  | a :: b :: c :: d :: rest => do
    let a ← hexValue? a
    let b ← hexValue? b
    let c ← hexValue? c
    let d ← hexValue? d
    some (a * 4096 + b * 256 + c * 16 + d, rest)
  | _ => none

/-- What one unit of a string's body stands for. -/
inductive Unit16 where
  /-- A character. -/
  | char (c : Char)
  /-- An escape that names one code unit. -/
  | unit (n : Nat)
deriving DecidableEq

/-- Reads one unit of a string's body: a character or an escape. -/
def readUnit? : List Char → Option (Unit16 × List Char)
  | '\\' :: 'u' :: rest => (readHex4? rest).map fun (n, tail) => (.unit n, tail)
  | '\\' :: c :: rest =>
    match c with
    | '"' => some (.char '"', rest)
    | '\\' => some (.char '\\', rest)
    | '/' => some (.char '/', rest)
    | 'b' => some (.char (Char.ofNat 8), rest)
    | 'f' => some (.char (Char.ofNat 12), rest)
    | 'n' => some (.char '\n', rest)
    | 'r' => some (.char '\r', rest)
    | 't' => some (.char '\t', rest)
    | _ => none
  | '\\' :: [] => none
  | c :: rest => if c.toNat < 32 then none else some (.char c, rest)
  | [] => none

/-- Reads the units of a string's body and passes its closing quote. -/
def readUnits? : Nat → List Char → Option (List Unit16 × List Char)
  | 0, _ => none
  | _ + 1, '"' :: rest => some ([], rest)
  | fuel + 1, cs =>
    match readUnit? cs with
    | none => none
    | some (u, rest) => (readUnits? fuel rest).map fun (us, tail) => (u :: us, tail)

/-- Whether a code unit is the first half of a surrogate pair. -/
def isHighHalf (n : Nat) : Bool :=
  0xD800 ≤ n && n ≤ 0xDBFF

/-- Whether a code unit is the second half of a surrogate pair. -/
def isLowHalf (n : Nat) : Bool :=
  0xDC00 ≤ n && n ≤ 0xDFFF

/-- The characters that units spell; there are none if a half stands alone. -/
def spell? : List Unit16 → Option (List Char)
  | [] => some []
  | .char c :: us => (spell? us).map (c :: ·)
  | .unit n :: us =>
    if isHighHalf n then
      match us with
      | .unit m :: us' =>
        if isLowHalf m then
          (spell? us').map (Char.ofNat (0x10000 + (n - 0xD800) * 1024 + (m - 0xDC00)) :: ·)
        else none
      | _ => none
    else if isLowHalf n then none
    else (spell? us).map (Char.ofNat n :: ·)

/-- Reads a string after its opening quote. -/
def readString? (cs : List Char) : Option (Option String × List Char) :=
  (readUnits? (cs.length + 1) cs).map fun (us, rest) => ((spell? us).map String.ofList, rest)

/-- The leading digits of a text, and the text after them. -/
def takeDigits (cs : List Char) : List Char × List Char :=
  (cs.takeWhile Char.isDigit, cs.dropWhile Char.isDigit)

/-- Reads the integer part of a number: a zero, or digits that do not start with one. -/
def readInteger? : List Char → Option (List Char × List Char)
  | '0' :: rest =>
    match rest with
    | c :: _ => if c.isDigit then none else some (['0'], rest)
    | [] => some (['0'], [])
  | cs =>
    let (digits, rest) := takeDigits cs
    if digits.isEmpty then none else some (digits, rest)

/-- Reads an optional fraction. -/
def readFraction? : List Char → Option (List Char × List Char)
  | '.' :: rest =>
    let (digits, tail) := takeDigits rest
    if digits.isEmpty then none else some ('.' :: digits, tail)
  | cs => some ([], cs)

/-- Reads an optional exponent. -/
def readExponent? : List Char → Option (List Char × List Char)
  | e :: rest =>
    if e = 'e' || e = 'E' then
      let (sign, body) := match rest with
        | '+' :: r => (['+'], r)
        | '-' :: r => (['-'], r)
        | r => ([], r)
      let (digits, tail) := takeDigits body
      if digits.isEmpty then none else some (e :: sign ++ digits, tail)
    else some ([], e :: rest)
  | [] => some ([], [])

/-- Reads a number. -/
def readNumber? (cs : List Char) : Option (List Char × List Char) := do
  let (sign, cs) := match cs with
    | '-' :: rest => (['-'], rest)
    | rest => ([], rest)
  let (integer, cs) ← readInteger? cs
  let (fraction, cs) ← readFraction? cs
  let (exponent, cs) ← readExponent? cs
  some (sign ++ integer ++ fraction ++ exponent, cs)

mutual

/-- Reads a value, blanks before it allowed. -/
def readValue? : Nat → List Char → Option (Json × List Char)
  | 0, _ => none
  | fuel + 1, cs =>
    match skipGap cs with
    | 'n' :: 'u' :: 'l' :: 'l' :: rest => some (.null, rest)
    | 't' :: 'r' :: 'u' :: 'e' :: rest => some (.bool true, rest)
    | 'f' :: 'a' :: 'l' :: 's' :: 'e' :: rest => some (.bool false, rest)
    | '"' :: rest => (readString? rest).map fun (s, tail) => (.string s, tail)
    | '[' :: rest =>
      match skipGap rest with
      | ']' :: tail => some (.array [], tail)
      | items => (readItems? fuel items).map fun (js, tail) => (.array js, tail)
    | '{' :: rest =>
      match skipGap rest with
      | '}' :: tail => some (.object [], tail)
      | entries => (readEntries? fuel entries).map fun (es, tail) => (.object es, tail)
    | cs => (readNumber? cs).map fun (digits, tail) => (.number digits, tail)

/-- Reads the items of an array, at least one, and passes the closing bracket. -/
def readItems? : Nat → List Char → Option (List Json × List Char)
  | 0, _ => none
  | fuel + 1, cs =>
    match readValue? fuel cs with
    | none => none
    | some (j, rest) =>
      match skipGap rest with
      | ']' :: tail => some ([j], tail)
      | ',' :: tail => (readItems? fuel tail).map fun (js, tail) => (j :: js, tail)
      | _ => none

/-- Reads the entries of an object, at least one, and passes the closing brace. -/
def readEntries? : Nat → List Char → Option (List (Option String × Json) × List Char)
  | 0, _ => none
  | fuel + 1, cs =>
    match skipGap cs with
    | '"' :: rest =>
      match readString? rest with
      | none => none
      | some (key, rest) =>
        match skipGap rest with
        | ':' :: rest =>
          match readValue? fuel rest with
          | none => none
          | some (j, rest) =>
            match skipGap rest with
            | '}' :: tail => some ([(key, j)], tail)
            | ',' :: tail => (readEntries? fuel tail).map fun (es, tail) => ((key, j) :: es, tail)
            | _ => none
        | _ => none
    | _ => none

end

/-- Reads a whole document. Every step that the reader takes passes a character or starts a value,
so twice the length bounds them. -/
def readChars? (cs : List Char) : Option Json :=
  match readValue? (2 * cs.length + 2) cs with
  | some (j, rest) => if (skipGap rest).isEmpty then some j else none
  | none => none

/-- Reads a whole document. -/
def read? (s : String) : Option Json :=
  readChars? s.toList

end RepoAudit.Json
