import PotExtract.Calendar.Date
import PotExtract.Text.Padded

/-!
# Points in time

A point in time is a count of seconds, seen from a place with some offset
from universal time. Dates reach from year -9999 to year 9999.

* `Timestamp.text`: the form in which templates write a date.
-/

namespace PotExtract

/-- How far local time is ahead of universal time. All parts have one sign. -/
structure Offset where
  hours : Int
  minutes : Int
  seconds : Int
  deriving DecidableEq, Repr

namespace Offset

/-- Universal time itself. -/
def utc : Offset := ⟨0, 0, 0⟩

/-- `n` with the sign of `sign`, if that has one. -/
def withSign (sign n : Int) : Int :=
  if sign > 0 then n.natAbs else if sign < 0 then -n.natAbs else n

/-- The offset of three parts. The first that is not zero gives its sign to those after it. -/
def ofParts? (hours minutes seconds : Int) : Option Offset :=
  if hours.natAbs ≤ 25 ∧ minutes.natAbs ≤ 59 ∧ seconds.natAbs ≤ 59 then
    let minutes := withSign hours minutes
    some ⟨hours, minutes, withSign minutes (withSign hours seconds)⟩
  else none

/-- An offset in seconds. -/
def total (o : Offset) : Int :=
  o.hours * 3600 + o.minutes * 60 + o.seconds

end Offset

/-- A point in time and the offset it is seen from. -/
structure Timestamp where
  /-- Seconds since the start of 1970 in universal time. -/
  seconds : Int
  offset : Offset
  deriving DecidableEq, Repr

namespace Timestamp

/-- The first second of year -9999. -/
def earliest : Int := -377705116800

/-- The last second of year 9999. -/
def latest : Int := 253402300799

/-- A point in time in universal time. -/
def ofUnix? (seconds : Int) : Option Timestamp :=
  if earliest ≤ seconds ∧ seconds ≤ latest then some ⟨seconds, .utc⟩ else none

/-- Seconds of the local clock. -/
def localSeconds (t : Timestamp) : Int :=
  t.seconds + t.offset.total

/-- The same point in time seen from another offset, if the local date is in range. -/
def seenFrom? (t : Timestamp) (offset : Offset) : Option Timestamp :=
  let moved : Timestamp := ⟨t.seconds, offset⟩
  if earliest ≤ moved.localSeconds ∧ moved.localSeconds ≤ latest then some moved else none

/-- The local date. -/
def date (t : Timestamp) : Date :=
  Date.ofDays (t.localSeconds / 86400)

/-- The second of the local day. -/
def secondOfDay (t : Timestamp) : Nat :=
  (t.localSeconds % 86400).toNat

/-- The local date and time to the minute, and the offset's hours and minutes. -/
def text (t : Timestamp) : String :=
  let sign := if t.offset.total < 0 then "-" else "+"
  padded 4 t.date.year ++ "-" ++ padded 2 t.date.month ++ "-" ++ padded 2 t.date.day ++ " " ++
    padded 2 (t.secondOfDay / 3600) ++ ":" ++ padded 2 (t.secondOfDay / 60 % 60) ++ sign ++
    padded 2 t.offset.hours.natAbs ++ padded 2 t.offset.minutes.natAbs

end Timestamp

end PotExtract
