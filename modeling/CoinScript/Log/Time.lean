/-
Times of records. A clock gives seconds and nanoseconds around the start of 1970; times before it
count as that start. A time is kept in whole milliseconds, and shown as a date and a time of day in
the Gregorian calendar. The calendar is reckoned in eras of 400 years that start on the first of
March, so that a leap day is the last day of its year.
-/

namespace CoinScript.Log

/-- A reading of the clock: seconds since the start of 1970, which may be negative, and nanoseconds
to add. -/
structure Instant where
  seconds : Int := 0
  nanos : Nat := 0
  deriving DecidableEq

/-- The time since the start of 1970. -/
structure Elapsed where
  seconds : Nat
  nanos : Nat
  deriving DecidableEq

/-- The time since the start of 1970, none before it. -/
def Instant.elapsed (t : Instant) : Elapsed :=
  if t.seconds < 0 then ⟨0, 0⟩ else ⟨t.seconds.toNat, t.nanos⟩

/-- The greatest count of milliseconds that a record holds. -/
def maxMillis : Nat := UInt64.size - 1

/-- Whole milliseconds, held at the greatest count. -/
def Elapsed.millis (t : Elapsed) : Nat := min (1000 * t.seconds + t.nanos / 1000000) maxMillis

/-! ## Dates -/

structure Date where
  year : Nat
  month : Nat
  day : Nat
  deriving DecidableEq

namespace Date

/-- Days in 400 years. -/
def daysPerEra : Nat := 146097

/-- Days from the first of March of the year 0 to the start of 1970. -/
def epochDay : Nat := 719468

/-- The year of an era that a day of the era falls in. The corrections take out the leap days, one in
four years, not in the hundredth, again at the end. -/
def yearOfEra (dayOfEra : Nat) : Nat :=
  (dayOfEra - dayOfEra / 1460 + dayOfEra / 36524 - dayOfEra / 146096) / 365

/-- The day of its year, from the first of March, of a day of an era. -/
def dayOfYear (dayOfEra : Nat) : Nat :=
  let year := yearOfEra dayOfEra
  dayOfEra - (365 * year + year / 4 - year / 100)

/-- The month, from March, of a day of the year: every five months from March on have 153 days. -/
def monthOfYear (dayOfYear : Nat) : Nat := (5 * dayOfYear + 2) / 153

/-- The date so many days after the start of 1970. -/
def ofDays (days : Nat) : Date :=
  let shifted := days + epochDay
  let dayOfEra := shifted % daysPerEra
  let fromMarch := monthOfYear (dayOfYear dayOfEra)
  let month := if fromMarch < 10 then fromMarch + 3 else fromMarch - 9
  { year := yearOfEra dayOfEra + 400 * (shifted / daysPerEra) + if month ≤ 2 then 1 else 0
    month := month
    day := dayOfYear dayOfEra - (153 * fromMarch + 2) / 5 + 1 }

end Date

/-! ## Text -/

/-- The decimal digits of a number, with zeros in front up to the width. -/
def decimal (width n : Nat) : String :=
  String.ofList ((Nat.toDigits 10 n).leftpad width '0')

/-- Date and time of day to the millisecond, rounded down (RFC 3339). Years have no bound here; up to second
67767976233532799 they are below 2³¹. -/
def Elapsed.timestamp (t : Elapsed) : String :=
  let date := Date.ofDays (t.seconds / 86400)
  let ofDay := t.seconds % 86400
  decimal 4 date.year ++ "-" ++ decimal 2 date.month ++ "-" ++ decimal 2 date.day ++ "T" ++
    decimal 2 (ofDay / 3600) ++ ":" ++ decimal 2 (ofDay % 3600 / 60) ++ ":" ++ decimal 2 (ofDay % 60) ++
    "." ++ decimal 3 (t.nanos / 1000000) ++ "Z"

end CoinScript.Log
