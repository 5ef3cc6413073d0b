import RepoAudit.Text.Number

/-!
# Magnitude of JSON numbers

A number is in range when it has a finite double next to it. The test is exact: the digits are
read as an integer times a power of ten and compared with the midpoint above the largest double.
-/

namespace RepoAudit.Json

open RepoAudit.Text

/-- The least number that is too large: half a step above the largest finite double. -/
def doubleBound : Nat := Nat.pow 2 1024 - Nat.pow 2 970

/-- The exponent that a number is written with. -/
def exponentOf (digits : List Char) : Int :=
  match (digits.dropWhile fun c => c ≠ 'e' && c ≠ 'E').tail with
  | '-' :: ds => -(digitsValue ds : Int)
  | '+' :: ds => digitsValue ds
  | ds => digitsValue ds

/-- Whether a written number is in range. -/
def isInRange (digits : List Char) : Bool :=
  let body := (digits.takeWhile fun c => c ≠ 'e' && c ≠ 'E').filter (· ≠ '-')
  let integer := body.takeWhile (· ≠ '.')
  let fraction := (body.dropWhile (· ≠ '.')).drop 1
  let significand := digitsValue (integer ++ fraction)
  let scale := exponentOf digits - fraction.length
  let magnitude : Int := (Nat.toDigits 10 significand).length + scale
  if significand = 0 || magnitude < 300 then true
  else if 400 < magnitude then false
  else if 0 ≤ scale then significand * Nat.pow 10 scale.toNat < doubleBound
  else significand < doubleBound * Nat.pow 10 (-scale).toNat

end RepoAudit.Json
