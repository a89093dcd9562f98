import PhpDoc.Data.Date

/-!
# Moments

A moment is counted in milliseconds from the beginning of 1970 in universal time. Its written form
has the date, the time of day and a mark for the time zone.
-/

namespace PhpDoc.Moment

/-- The number of milliseconds of a day. -/
def dayMillis : Nat := 86400000

/-- The day of a moment. A moment outside the calendar has none. -/
def date? (millis : Int) : Option Date :=
  let days := millis / dayMillis + Date.epochDays
  if days < 0 then none else Date.ofDayCount? days.toNat

/-- Hours, minutes and seconds of a number of seconds of a day. -/
def clock (seconds : Nat) : String :=
  Decimal.paddedDigits 2 (seconds / 3600) ++ ":" ++ Decimal.paddedDigits 2 (seconds / 60 % 60) ++
    ":" ++ Decimal.paddedDigits 2 (seconds % 60)

/-- The written form of a moment with its milliseconds, empty outside the calendar. -/
def precise (millis : Int) : String :=
  let time := (millis % dayMillis).toNat
  (date? millis).elim "" fun date =>
    date.iso ++ "T" ++ clock (time / 1000) ++ "." ++ Decimal.paddedDigits 3 (time % 1000) ++ "Z"

/-- The written form of a moment in whole seconds, empty outside the calendar. -/
def seconds (millis : Int) : String :=
  (date? millis).elim "" fun date =>
    date.iso ++ "T" ++ clock ((millis % dayMillis).toNat / 1000) ++ "+00:00"

end PhpDoc.Moment
