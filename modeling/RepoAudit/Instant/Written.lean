import RepoAudit.Instant.Basic
import RepoAudit.Text.Blank

/-!
# Instants as text

An instant is written as a date, a `T` and a time, the fraction of a second with three, six or
nine digits as needed, then the zone: `Z` in a snapshot, a zero offset in a log line. Reading is
more tolerant: fields may have fewer digits, blanks may stand between them, a space may replace
the `T`, and any zone is moved to universal time.
-/

namespace RepoAudit.Instant

open RepoAudit.Text

/-- The fraction of a second, with as few groups of three digits as hold it. -/
def writeFraction (nano : Nat) : List Char :=
  if nano = 0 then []
  else if nano % 1000000 = 0 then '.' :: padded 3 (nano / 1000000)
  else if nano % 1000 = 0 then '.' :: padded 6 (nano / 1000)
  else '.' :: padded 9 nano

/-- A year: four digits, or a sign and at least four digits when it needs more or is negative. -/
def writeYear (year : Int) : List Char :=
  if 0 ≤ year && year ≤ 9999 then padded 4 year.toNat
  else if year < 0 then '-' :: padded 4 (-year).toNat
  else '+' :: padded 4 year.toNat

/-- The written form of an instant, with a given text for its zone. -/
def writeWith (zone : List Char) (t : Instant) : List Char :=
  writeYear t.year ++ '-' :: padded 2 t.month ++ '-' :: padded 2 t.day ++ 'T' ::
    padded 2 t.hour ++ ':' :: padded 2 t.minute ++ ':' :: padded 2 t.second ++
    writeFraction t.nano ++ zone

/-- The written form in a snapshot. -/
def write (t : Instant) : String :=
  String.ofList (t.writeWith ['Z'])

/-- The written form at the start of a log line. -/
def writeForLog (t : Instant) : String :=
  String.ofList (t.writeWith ['+', '0', '0', ':', '0', '0'])

/-- Reads between one and `most` digits, and the text after them. -/
def readDigits? (most : Nat) (cs : List Char) : Option (Nat × List Char) :=
  let digits := (cs.take most).takeWhile Char.isDigit
  if digits.isEmpty then none else some (digitsValue digits, cs.drop digits.length)

/-- Reads a field of one or two digits, blanks before it allowed. -/
def readField? (cs : List Char) : Option (Nat × List Char) :=
  readDigits? 2 (trimStart cs)

/-- Reads a year: up to four digits, or any number of them after a sign. -/
def readYear? (cs : List Char) : Option (Int × List Char) :=
  match trimStart cs with
  | '-' :: rest => (readDigits? rest.length rest).map fun (n, tail) => (-(n : Int), tail)
  | '+' :: rest => (readDigits? rest.length rest).map fun (n, tail) => ((n : Int), tail)
  | rest => (readDigits? 4 rest).map fun (n, tail) => ((n : Int), tail)

/-- Passes one given character, blanks before it allowed. -/
def readMark? (mark : Char) (cs : List Char) : Option (List Char) :=
  match trimStart cs with
  | c :: rest => if c = mark then some rest else none
  | [] => none

/-- Reads an optional fraction: its first nine digits count. -/
def readFraction? : List Char → Option (Nat × List Char)
  | '.' :: rest =>
    let digits := rest.takeWhile Char.isDigit
    if digits.isEmpty then none
    else
      let kept := digits.take 9
      some (digitsValue kept * Nat.pow 10 (9 - kept.length), rest.dropWhile Char.isDigit)
  | cs => some (0, cs)

/-- Reads exactly two digits. -/
def readPair? : List Char → Option (Nat × List Char)
  | a :: b :: rest =>
    if a.isDigit && b.isDigit then some (digitsValue [a, b], rest) else none
  | _ => none

/-- Reads a zone as its distance from universal time in minutes. -/
def readZone? (cs : List Char) : Option (Int × List Char) :=
  match cs with
  | 'Z' :: rest => some (0, rest)
  | 'z' :: rest => some (0, rest)
  | sign :: rest =>
    if (cs.take 3).map Char.toUpper == ['U', 'T', 'C'] then some (0, cs.drop 3)
    else if sign = '+' || sign = '-' || sign.toNat = 0x2212 then
      match readPair? rest with
      | none => none
      | some (hours, rest) =>
        match readPair? (rest.dropWhile fun c => c = ':' || isBlank c) with
        | none => none
        | some (minutes, rest) =>
          if 59 < minutes || 23 < hours then none
          else
            let distance : Int := hours * 60 + minutes
            some (if sign = '+' then distance else -distance, rest)
    else none
  | [] => none

/-- Reads an instant; nothing but blanks may follow it. -/
def readChars? (cs : List Char) : Option Instant := do
  let (year, cs) ← readYear? cs
  let cs ← readMark? '-' cs
  let (month, cs) ← readField? cs
  let cs ← readMark? '-' cs
  let (day, cs) ← readField? cs
  let cs ← match cs with
    | c :: rest => if c = 'T' || c = 't' || c = ' ' then some rest else none
    | [] => none
  let (hour, cs) ← readField? cs
  let cs ← readMark? ':' cs
  let (minute, cs) ← readField? cs
  let cs ← readMark? ':' cs
  let (second, cs) ← readField? cs
  let (nano, cs) ← readFraction? cs
  let (distance, cs) ← readZone? (trimStart cs)
  if !isBlankText cs then none
  else
    let clock : Instant := ⟨year, month, day, hour, minute, second, nano⟩
    if !clock.isValid then none
    else
      let t := clock.shift (-distance)
      if t.isValid then some t else none

/-- Reads an instant. -/
def read? (s : String) : Option Instant :=
  readChars? s.toList

end RepoAudit.Instant
