/-!
# Decimal numbers

Counters and line numbers are at most `maxCounter`. Reading a counter takes an optional plus sign
and at least one ASCII digit and refuses what lies beyond the bound; writing pads with zeros.
-/

namespace RepoAudit.Text

/-- The largest counter. -/
def maxCounter : Nat := 4294967295

/-- The number that a list of ASCII digits spells. -/
def digitsValue (ds : List Char) : Nat :=
  ds.foldl (fun n d => n * 10 + (d.toNat - 48)) 0

/-- Reads a counter: an optional plus sign, then ASCII digits. -/
def readCounter? (cs : List Char) : Option Nat :=
  let digits := match cs with
    | '+' :: ds => ds
    | ds => ds
  if digits.isEmpty || !digits.all Char.isDigit then none
  else if digitsValue digits ≤ maxCounter then some (digitsValue digits) else none

/-- A number with at least `width` digits. -/
def padded (width n : Nat) : List Char :=
  let digits := Nat.toDigits 10 n
  List.replicate (width - digits.length) '0' ++ digits

end RepoAudit.Text
