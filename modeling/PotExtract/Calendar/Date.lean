/-!
# Dates of the Gregorian calendar

Dates and the days counted from 1 January 1970, with the calendar's rules
carried back before its introduction and to years before zero.
-/

namespace PotExtract

/-- A day of the calendar. Year zero comes before year one. -/
structure Date where
  year : Int
  /-- From 1 to 12. -/
  month : Nat
  /-- From 1 on. -/
  day : Nat
  deriving DecidableEq, Repr

/-- The date a number of days after 1 January 1970. Years are taken to begin in March, so that a
leap day ends its year, and 400 of them always have 146097 days. -/
def Date.ofDays (days : Int) : Date :=
  let sinceMarch := days + 719468
  let era := sinceMarch / 146097
  let dayOfEra := (sinceMarch % 146097).toNat
  let yearOfEra := (dayOfEra - dayOfEra / 1460 + dayOfEra / 36524 - dayOfEra / 146096) / 365
  let dayOfYear := dayOfEra - (365 * yearOfEra + yearOfEra / 4 - yearOfEra / 100)
  let monthFromMarch := (5 * dayOfYear + 2) / 153
  let month := if monthFromMarch < 10 then monthFromMarch + 3 else monthFromMarch - 9
  { year := era * 400 + yearOfEra + (if month ≤ 2 then 1 else 0)
    month
    day := dayOfYear - (153 * monthFromMarch + 2) / 5 + 1 }

end PotExtract
