import RepoAudit.Instant.Basic
import RepoAudit.Json.Magnitude
import RepoAudit.Json.Reader
import RepoAudit.Toml.Basic

/-!
# TOML scalars

Which bare words are numbers, dates or truth values, and how strings are read. A number has to fit
a machine word of 128 bits or a double; a date has to name a day of the calendar.
-/

namespace RepoAudit.Toml

open RepoAudit.Text

/-- A control character that may not stand in a string or a comment; a tab may. -/
def isForbidden (c : Char) : Bool :=
  (c.toNat < 32 && c != '\t') || c.toNat == 127

/-- A character of a bare key. -/
def isBareKey (c : Char) : Bool :=
  c.isAlphanum || c == '_' || c == '-'

/-- A character of a bare word: a number, a date or a truth value. -/
def isBareWord (c : Char) : Bool :=
  c.isAlphanum || c == '_' || c == '-' || c == '+' || c == '.' || c == ':'

/-- Digits with single underscores between them, without the underscores. -/
def joinDigits? (isDigit : Char → Bool) : List Char → Option (List Char)
  | [] => none
  | [d] => if isDigit d then some [d] else none
  | d :: '_' :: ds => if isDigit d then (joinDigits? isDigit ds).map (d :: ·) else none
  | d :: ds => if isDigit d then (joinDigits? isDigit ds).map (d :: ·) else none

/-- The value of digits in a base. -/
def valueInBase (base : Nat) (ds : List Char) : Nat :=
  ds.foldl (fun n d => n * base + (Json.hexValue? d).getD 0) 0

/-- Whether a text is an integer without a sign that has no needless zero in front. -/
def plainDigits? (cs : List Char) : Option (List Char) :=
  (joinDigits? Char.isDigit cs).bind fun ds =>
    if ds.head? == some '0' && 1 < ds.length then none else some ds

/-- A text without its sign, and whether that is a minus. -/
def splitSign : List Char → Bool × List Char
  | '-' :: cs => (true, cs)
  | '+' :: cs => (false, cs)
  | cs => (false, cs)

/-- Whether digits in a base spell a number of at most 128 bits. -/
def isBased (base : Nat) (isDigit : Char → Bool) (cs : List Char) : Bool :=
  match joinDigits? isDigit cs with
  | some ds => valueInBase base ds < Nat.pow 2 128
  | none => false

/-- Whether a bare word is an integer. -/
def isInteger (cs : List Char) : Bool :=
  match cs with
  | '0' :: 'x' :: ds => isBased 16 (fun c => (Json.hexValue? c).isSome) ds
  | '0' :: 'o' :: ds => isBased 8 (fun c => '0' ≤ c && c ≤ '7') ds
  | '0' :: 'b' :: ds => isBased 2 (fun c => c == '0' || c == '1') ds
  | _ =>
    let (negative, body) := splitSign cs
    match plainDigits? body with
    | some ds => if negative then digitsValue ds ≤ Nat.pow 2 127 else digitsValue ds < Nat.pow 2 128
    | none => false

/-- Whether a bare word is a floating-point number. -/
def isFloat (cs : List Char) : Bool :=
  let body := (splitSign cs).2
  if body = "inf".toList || body = "nan".toList then true
  else
    let mantissa := body.takeWhile fun c => c ≠ 'e' && c ≠ 'E'
    let exponent := body.drop mantissa.length
    let integer := mantissa.takeWhile (· ≠ '.')
    let fraction := mantissa.drop integer.length
    let fractionOk := match fraction with
      | [] => !exponent.isEmpty
      | _ :: ds => (joinDigits? Char.isDigit ds).isSome
    let exponentOk := match exponent with
      | [] => true
      | _ :: rest => (joinDigits? Char.isDigit (splitSign rest).2).isSome
    (plainDigits? integer).isSome && fractionOk && exponentOk &&
      Json.isInRange (body.filter (· ≠ '_'))

/-- The number that exactly `n` digits at the start of a text spell, and the rest. -/
def fixedDigits? (n : Nat) (cs : List Char) : Option (Nat × List Char) :=
  let ds := cs.take n
  if ds.length = n && ds.all Char.isDigit then some (digitsValue ds, cs.drop n) else none

/-- Passes one given character. -/
def passChar? (c : Char) : List Char → Option (List Char)
  | d :: rest => if d = c then some rest else none
  | [] => none

/-- Reads a date at the start of a text. -/
def readDate? (cs : List Char) : Option (List Char) := do
  let (year, cs) ← fixedDigits? 4 cs
  let cs ← passChar? '-' cs
  let (month, cs) ← fixedDigits? 2 cs
  let cs ← passChar? '-' cs
  let (day, cs) ← fixedDigits? 2 cs
  if 1 ≤ month && month ≤ 12 && 1 ≤ day && day ≤ Instant.daysInMonth year month then some cs
  else none

/-- Reads an optional fraction of a second. -/
def readSecondFraction? : List Char → Option (List Char)
  | '.' :: rest =>
    if (rest.takeWhile Char.isDigit).isEmpty then none else some (rest.dropWhile Char.isDigit)
  | cs => some cs

/-- Reads a time at the start of a text; its seconds may be left out. -/
def readTime? (cs : List Char) : Option (List Char) := do
  let (hour, cs) ← fixedDigits? 2 cs
  let cs ← passChar? ':' cs
  let (minute, cs) ← fixedDigits? 2 cs
  if 23 < hour || 59 < minute then none
  else
    match cs with
    | ':' :: rest =>
      let (second, rest) ← fixedDigits? 2 rest
      if 60 < second then none else readSecondFraction? rest
    | cs => some cs

/-- Whether a text is the zone of a time. -/
def isZone (cs : List Char) : Bool :=
  match cs with
  | [c] => c == 'Z' || c == 'z'
  | sign :: rest =>
    (sign == '+' || sign == '-') &&
      (match fixedDigits? 2 rest with
      | some (hours, ':' :: rest) =>
        (match fixedDigits? 2 rest with
        | some (minutes, []) => hours ≤ 23 && minutes ≤ 59
        | _ => false)
      | _ => false)
  | [] => false

/-- Whether a bare word is a date, a time, or both; a space may stand between them. -/
def isMoment (cs : List Char) : Bool :=
  match readDate? cs with
  | some [] => true
  | some (mark :: rest) =>
    (mark == 'T' || mark == 't' || mark == ' ') &&
      (match readTime? rest with
      | some tail => tail.isEmpty || isZone tail
      | none => false)
  | none => readTime? cs == some []

/-- The value of a bare word. -/
def bareValue? (cs : List Char) : Option Toml :=
  if cs = "true".toList then some (.boolean true)
  else if cs = "false".toList then some (.boolean false)
  else if isInteger cs || isFloat cs then some .number
  else if isMoment cs then some .moment
  else none

/-- A character named by hexadecimal digits, and the rest of the text. -/
def hexEscape? (n : Nat) (cs : List Char) : Option (Char × List Char) :=
  let ds := cs.take n
  if ds.length = n && ds.all fun d => (Json.hexValue? d).isSome then
    let value := valueInBase 16 ds
    if value < 0xD800 || (0xDFFF < value && value < 0x110000) then
      some (Char.ofNat value, cs.drop n)
    else none
  else none

/-- Reads an escape after its backslash. -/
def readEscape? : List Char → Option (Char × List Char)
  | 'b' :: rest => some (Char.ofNat 8, rest)
  | 't' :: rest => some ('\t', rest)
  | 'n' :: rest => some ('\n', rest)
  | 'f' :: rest => some (Char.ofNat 12, rest)
  | 'r' :: rest => some ('\r', rest)
  | 'e' :: rest => some (Char.ofNat 27, rest)
  | '"' :: rest => some ('"', rest)
  | '\\' :: rest => some ('\\', rest)
  | 'x' :: rest => hexEscape? 2 rest
  | 'u' :: rest => hexEscape? 4 rest
  | 'U' :: rest => hexEscape? 8 rest
  | _ => none

/-- Reads the body of a string with escapes and passes its closing quote. -/
def readBasic? : Nat → List Char → Option (List Char × List Char)
  | 0, _ => none
  | fuel + 1, cs =>
    match cs with
    | [] => none
    | '"' :: rest => some ([], rest)
    | '\\' :: rest =>
      (readEscape? rest).bind fun (c, rest) =>
        (readBasic? fuel rest).map fun (body, tail) => (c :: body, tail)
    | c :: rest =>
      if isForbidden c then none
      else (readBasic? fuel rest).map fun (body, tail) => (c :: body, tail)

/-- Reads the body of a string without escapes and passes its closing quote. -/
def readLiteral? : List Char → Option (List Char × List Char)
  | [] => none
  | '\'' :: rest => some ([], rest)
  | c :: rest =>
    if isForbidden c then none
    else (readLiteral? rest).map fun (body, tail) => (c :: body, tail)

/-- The text after a newline at its start, if there is one. -/
def afterNewline? : List Char → Option (List Char)
  | '\n' :: rest => some rest
  | '\r' :: '\n' :: rest => some rest
  | _ => none

/-- The quotes at the end of a string of several lines that belong to it, and the rest of the text;
`cs` starts with three quotes, of which up to five stand together. -/
def closeQuotes (quote : Char) (cs : List Char) : List Char × List Char :=
  let n := min 5 (cs.takeWhile (· = quote)).length
  (List.replicate (n - 3) quote, cs.drop n)

/-- The text after a backslash at the end of a line and the blanks around the line's end. -/
def afterLineEscape? (cs : List Char) : Option (List Char) :=
  let rest := cs.dropWhile fun c => c = ' ' || c = '\t'
  (afterNewline? rest).map fun tail =>
    tail.dropWhile fun c => c = ' ' || c = '\t' || c = '\n' || c = '\r'

/-- Reads the body of a string of several lines with escapes and passes its closing quotes. -/
def readBasicLines? : Nat → List Char → Option (List Char × List Char)
  | 0, _ => none
  | fuel + 1, cs =>
    match cs with
    | [] => none
    | '"' :: '"' :: '"' :: _ => some (closeQuotes '"' cs)
    | '\\' :: rest =>
      match afterLineEscape? rest with
      | some tail => readBasicLines? fuel tail
      | none =>
        (readEscape? rest).bind fun (c, rest) =>
          (readBasicLines? fuel rest).map fun (body, tail) => (c :: body, tail)
    | '\r' :: '\n' :: rest =>
      (readBasicLines? fuel rest).map fun (body, tail) => ('\r' :: '\n' :: body, tail)
    | c :: rest =>
      if isForbidden c && c != '\n' then none
      else (readBasicLines? fuel rest).map fun (body, tail) => (c :: body, tail)

/-- Reads the body of a string of several lines without escapes and passes its closing quotes. -/
def readLiteralLines? : Nat → List Char → Option (List Char × List Char)
  | 0, _ => none
  | fuel + 1, cs =>
    match cs with
    | [] => none
    | '\'' :: '\'' :: '\'' :: _ => some (closeQuotes '\'' cs)
    | '\r' :: '\n' :: rest =>
      (readLiteralLines? fuel rest).map fun (body, tail) => ('\r' :: '\n' :: body, tail)
    | c :: rest =>
      if isForbidden c && c != '\n' then none
      else (readLiteralLines? fuel rest).map fun (body, tail) => (c :: body, tail)

/-- Reads a string, its quotes included. -/
def readString? (cs : List Char) : Option (List Char × List Char) :=
  match cs with
  | '"' :: '"' :: '"' :: rest =>
    let body := (afterNewline? rest).getD rest
    readBasicLines? (body.length + 1) body
  | '\'' :: '\'' :: '\'' :: rest =>
    let body := (afterNewline? rest).getD rest
    readLiteralLines? (body.length + 1) body
  | '"' :: rest => readBasic? (rest.length + 1) rest
  | '\'' :: rest => readLiteral? rest
  | _ => none

end RepoAudit.Toml
