import RepoAudit.Instant.Basic

/-!
# Instants by count

A clock counts nanoseconds from the start of 1970. The calendar day of a count is found in the cycle
of four hundred years that leap days follow, with years that start in March, so that a leap day ends
its year.
-/

namespace RepoAudit.Instant

/-- The number of days in four hundred years. -/
def daysInCycle : Int := 146097

/-- The days from the start of March of the year zero to the start of 1970. -/
def daysToEpoch : Int := 719468

/-- The year, the month and the day of a count of days from the start of 1970. -/
def dayOfCount (days : Int) : Int × Nat × Nat :=
  let shifted := days + daysToEpoch
  let cycle := shifted / daysInCycle
  let inCycle := shifted % daysInCycle
  let yearInCycle := (inCycle - inCycle / 1460 + inCycle / 36524 - inCycle / 146096) / 365
  let inYear := inCycle - (365 * yearInCycle + yearInCycle / 4 - yearInCycle / 100)
  let marchMonth := (5 * inYear + 2) / 153
  let day := inYear - (153 * marchMonth + 2) / 5 + 1
  let month := if marchMonth < 10 then marchMonth + 3 else marchMonth - 9
  let year := yearInCycle + 400 * cycle
  (if month ≤ 2 then year + 1 else year, month.toNat, day.toNat)

/-- The number of nanoseconds in a second. -/
def nanosInSecond : Int := 1000000000

/-- The instant of a count of nanoseconds from the start of 1970. -/
def ofNanoseconds (count : Int) : Instant :=
  let seconds := count / nanosInSecond
  let inDay := (seconds % 86400).toNat
  let (year, month, day) := dayOfCount (seconds / 86400)
  ⟨year, month, day, inDay / 3600, inDay / 60 % 60, inDay % 60, (count % nanosInSecond).toNat⟩

end RepoAudit.Instant
