import PhpDoc.Data.Decimal

/-!
# Dates and times of day

Dates of the years 1 to 9999, in the order of the calendar. A date is written as year, month and
day. It is read in the four usual spellings: year, month and day with or without dashes, and year,
week and weekday with or without dashes, where the weekday may be left out and then is a Monday. A
text in such a spelling is 7, 8 or 10 bytes long; what fills a text up to that length is not looked
at.

A time of day is counted in hours, minutes, seconds and microseconds. It may say how far the clocks
of its zone are ahead of universal time.
-/

namespace PhpDoc

/-- A day of the calendar. -/
structure Date where
  year : Nat
  month : Nat
  day : Nat
  deriving DecidableEq, Repr, Inhabited

namespace Date

/-- Whether a year has a leap day. -/
def isLeap (year : Nat) : Bool :=
  year % 4 == 0 && (year % 100 != 0 || year % 400 == 0)

/-- The number of days of a month. -/
def monthDays (year month : Nat) : Nat :=
  match month with
  | 2 => if isLeap year then 29 else 28
  | 4 | 6 | 9 | 11 => 30
  | _ => 31

/-- The date, if it is one of the calendar. -/
def make? (year month day : Nat) : Option Date :=
  if 1 ≤ year && year ≤ 9999 && 1 ≤ month && month ≤ 12 && 1 ≤ day &&
      day ≤ monthDays year month then
    some ⟨year, month, day⟩
  else none

/-- Whether the first date is not after the second. -/
def le (a b : Date) : Bool :=
  a.year < b.year || (a.year == b.year &&
    (a.month < b.month || (a.month == b.month && a.day ≤ b.day)))

/-- The written form of a date: year, month and day with dashes. -/
def iso (d : Date) : String :=
  Decimal.paddedDigits 4 d.year ++ "-" ++ Decimal.paddedDigits 2 d.month ++ "-" ++
    Decimal.paddedDigits 2 d.day

/-- The number of days of the years before `year`. -/
def daysBeforeYear (year : Nat) : Nat :=
  let y := year - 1
  y * 365 + y / 4 - y / 100 + y / 400

/-- The month and the day of the month for a day of the year, among the given months. -/
def monthAndDay (year day : Nat) : List Nat → Nat × Nat
  | [] => (12, day)
  | month :: months =>
      if day ≤ monthDays year month then (month, day)
      else monthAndDay year (day - monthDays year month) months

/-- The date of a day that lies in the year `year`. -/
def ofDayOfYear? (year day : Nat) : Option Date :=
  let (month, dayOfMonth) := monthAndDay year day (List.range' 1 12)
  make? year month dayOfMonth

/-- The number of days of a year. -/
def yearDays (year : Nat) : Nat :=
  if isLeap year then 366 else 365

/-- The date of a day of the year `year`, which may reach into the years before and after. -/
def ofYearDay? (year : Nat) (day : Int) : Option Date :=
  if day < 1 then ofDayOfYear? (year - 1) (day + yearDays (year - 1)).toNat
  else if day ≤ yearDays year then ofDayOfYear? year day.toNat
  else ofDayOfYear? (year + 1) (day - yearDays year).toNat

/-- The date with the given number of days before it, counted from the first day of the year 1. -/
def ofDayCount? (days : Nat) : Option Date :=
  let rest := days % 146097
  let century := min (rest / 36524) 3
  let rest := rest - century * 36524
  let leapCycle := rest / 1461
  let rest := rest % 1461
  let year := min (rest / 365) 3
  ofDayOfYear? (days / 146097 * 400 + century * 100 + leapCycle * 4 + year + 1)
    (rest - year * 365 + 1)

/-- The number of days before the first of January 1970. -/
def epochDays : Nat := 719162

/-- The weekday of the first day of a year, where Monday is 0. -/
def firstWeekday (year : Nat) : Nat :=
  (daysBeforeYear year + 1 + 6) % 7

/-- The day of the year on which the first week of the year starts, which may lie before it. Weeks
start on Mondays, and the first one holds the first Thursday. -/
def firstWeekStart (year : Nat) : Int :=
  let weekday : Int := firstWeekday year
  if weekday ≤ 3 then 1 - weekday else 8 - weekday

/-- Whether a year has a week with number 53: it starts on a Thursday, or on a Wednesday when it is
a leap year. -/
def hasLongWeeks (year : Nat) : Bool :=
  firstWeekday year == 3 || (firstWeekday year == 2 && isLeap year)

/-- The date of a weekday of a week of the year, where the Monday is day 1. -/
def ofWeek? (year week weekday : Nat) : Option Date :=
  if 1 ≤ year && year ≤ 9999 && 1 ≤ week && (week ≤ 52 || (week == 53 && hasLongWeeks year)) &&
      1 ≤ weekday && weekday ≤ 7 then
    ofYearDay? year (firstWeekStart year + (week - 1) * 7 + (weekday - 1))
  else none

/-- The number written by the first `width` characters, which have to be ASCII digits, and the
text after them. -/
def digits? : Nat → Nat → List Char → Option (Nat × List Char)
  | 0, n, cs => some (n, cs)
  | width + 1, n, c :: cs =>
      if c.isDigit then digits? width (n * 10 + (c.toNat - '0'.toNat)) cs else none
  | _ + 1, _, [] => none

/-- The text after a separating dash. Without dashes nothing has to separate the parts. -/
def separator? (dashed : Bool) (cs : List Char) : Option (List Char) :=
  match dashed, cs with
  | false, _ => some cs
  | true, '-' :: rest => some rest
  | true, _ => none

/-- The date of a year and a text for week and weekday. -/
def ofWeekText? (year : Nat) (dashed : Bool) (cs : List Char) : Option Date := do
  let (week, rest) ← digits? 2 0 cs
  if rest.isEmpty then ofWeek? year week 1
  else
    let (weekday, _) ← digits? 1 0 (← separator? dashed rest)
    ofWeek? year week weekday

/-- The date of a year and a text for month and day. -/
def ofMonthText? (year : Nat) (dashed : Bool) (cs : List Char) : Option Date := do
  let (month, rest) ← digits? 2 0 cs
  let (day, _) ← digits? 2 0 (← separator? dashed rest)
  make? year month day

/-- The date that a text spells. -/
def parse? (text : String) : Option Date :=
  if [7, 8, 10].contains text.utf8ByteSize then
    match digits? 4 0 text.toList with
    | none => none
    | some (year, rest) =>
        let dashed := rest.head? == some '-'
        match if dashed then rest.drop 1 else rest with
        | 'W' :: week => ofWeekText? year dashed week
        | month => ofMonthText? year dashed month
  else none

end Date

/-! ## Times of day -/

/-- A time of day, and the offset of its zone in minutes if it names one. -/
structure Clock where
  hour : Nat
  minute : Nat
  second : Nat
  micros : Nat
  zone : Option Int
  deriving DecidableEq, Repr, Inhabited

namespace Clock

/-- The written form of the offset of a zone. -/
def zoneText (offset : Int) : String :=
  (if offset < 0 then "-" else "+") ++ Decimal.paddedDigits 2 (offset.natAbs / 60) ++ ":" ++
    Decimal.paddedDigits 2 (offset.natAbs % 60)

/-- The written form of a time of day. Microseconds are left out where there are none. -/
def text (c : Clock) : String :=
  Decimal.paddedDigits 2 c.hour ++ ":" ++ Decimal.paddedDigits 2 c.minute ++ ":" ++
    Decimal.paddedDigits 2 c.second ++
    (if c.micros = 0 then "" else "." ++ Decimal.paddedDigits 6 c.micros) ++
    c.zone.elim "" zoneText

/-- The call that makes the zone with an offset. Offsets are counted from the day before when they
are negative. -/
def zoneCall (offset : Int) : String :=
  if offset = 0 then "datetime.timezone.utc"
  else if offset < 0 then
    "datetime.timezone(datetime.timedelta(days=-1, seconds=" ++ toString (86400 + 60 * offset) ++
      "))"
  else "datetime.timezone(datetime.timedelta(seconds=" ++ toString (60 * offset) ++ "))"

/-- The arguments of the call that makes the time of day. Parts at the end that are zero are left
out, but not the minutes. -/
def arguments (c : Clock) : List String :=
  [toString c.hour, toString c.minute] ++
    (if c.second = 0 && c.micros = 0 then [] else [toString c.second]) ++
    (if c.micros = 0 then [] else [toString c.micros]) ++
    c.zone.elim [] fun offset => ["tzinfo=" ++ zoneCall offset]

end Clock

end PhpDoc
