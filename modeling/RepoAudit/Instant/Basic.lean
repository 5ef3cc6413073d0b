import RepoAudit.Text.Number

/-!
# Instants

A moment in universal time, by calendar and clock. A second of sixty is a leap second. `isValid`
says that the fields name a day of the Gregorian calendar and a time of that day; `earlier` and
`later` move by a day, and `shift` by less than a day's minutes, which is all that a time zone
asks for.
-/

namespace RepoAudit

/-- A moment in universal time. -/
structure Instant where
  /-- The year; zero and below are the years before the first. -/
  year : Int
  /-- The month, from one. -/
  month : Nat
  /-- The day of the month, from one. -/
  day : Nat
  /-- The hour of the day. -/
  hour : Nat
  /-- The minute of the hour. -/
  minute : Nat
  /-- The second of the minute; sixty is a leap second. -/
  second : Nat
  /-- The nanosecond of the second. -/
  nano : Nat
deriving DecidableEq, Repr

namespace Instant

/-- The first year that a calendar day can have. -/
def firstYear : Int := -262143

/-- The last year that a calendar day can have. -/
def lastYear : Int := 262142

/-- Whether a year has a leap day. -/
def isLeapYear (year : Int) : Bool :=
  year % 4 == 0 && (year % 100 != 0 || year % 400 == 0)

/-- The number of days in a month. -/
def daysInMonth (year : Int) (month : Nat) : Nat :=
  if month == 2 then (if isLeapYear year then 29 else 28)
  else if month == 4 || month == 6 || month == 9 || month == 11 then 30
  else 31

/-- Whether the fields name a day of the calendar and a time of that day. -/
def isValid (t : Instant) : Bool :=
  firstYear ≤ t.year && t.year ≤ lastYear && 1 ≤ t.month && t.month ≤ 12 && 1 ≤ t.day &&
    t.day ≤ daysInMonth t.year t.month && t.hour ≤ 23 && t.minute ≤ 59 && t.second ≤ 60 &&
    t.nano ≤ 999999999

/-- The same time one day earlier. -/
def earlier (t : Instant) : Instant :=
  if 1 < t.day then { t with day := t.day - 1 }
  else if 1 < t.month then
    { t with month := t.month - 1, day := daysInMonth t.year (t.month - 1) }
  else { t with year := t.year - 1, month := 12, day := 31 }

/-- The same time one day later. -/
def later (t : Instant) : Instant :=
  if t.day < daysInMonth t.year t.month then { t with day := t.day + 1 }
  else if t.month < 12 then { t with month := t.month + 1, day := 1 }
  else { t with year := t.year + 1, month := 1, day := 1 }

/-- The instant moved by less than a day's minutes. -/
def shift (t : Instant) (minutes : Int) : Instant :=
  let total : Int := t.hour * 60 + t.minute + minutes
  let place (day : Instant) (minuteOfDay : Int) : Instant :=
    { day with hour := (minuteOfDay / 60).toNat, minute := (minuteOfDay % 60).toNat }
  if total < 0 then place t.earlier (total + 1440)
  else if 1440 ≤ total then place t.later (total - 1440)
  else place t total

end Instant

end RepoAudit
