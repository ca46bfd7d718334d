/-!
# Instants

Points on the universal time line, to the nanosecond. A leap second is the second before it with a
fraction of one second or more. Dates are those of the Gregorian calendar, in both directions.
-/

namespace Steward

/-- Seconds since the start of 1970 and nanoseconds after that. -/
structure Instant where
  seconds : Int
  nanos : Nat := 0
deriving DecidableEq, Repr, Inhabited

/-- A day of the calendar. -/
structure Date where
  year : Int
  month : Nat
  day : Nat
deriving DecidableEq, Repr

namespace Date

def isLeap (year : Int) : Bool := year % 4 = 0 && (year % 100 != 0 || year % 400 = 0)

def daysInMonth (year : Int) (month : Nat) : Nat :=
  match month with
  | 2 => if isLeap year then 29 else 28
  | 4 | 6 | 9 | 11 => 30
  | _ => 31

def isValid (d : Date) : Bool :=
  1 ≤ d.month && d.month ≤ 12 && 1 ≤ d.day && d.day ≤ daysInMonth d.year d.month

/-- The number of days from the first of January 1970. Years are counted from March, so that the
leap day comes last, in eras of 400 years. -/
def toDays (d : Date) : Int :=
  let y := if d.month ≤ 2 then d.year - 1 else d.year
  let era := y / 400
  let yearOfEra := y - era * 400
  let monthFromMarch : Int := ((d.month + 9) % 12 : Nat)
  let dayOfYear := (153 * monthFromMarch + 2) / 5 + d.day - 1
  let dayOfEra := yearOfEra * 365 + yearOfEra / 4 - yearOfEra / 100 + dayOfYear
  era * 146097 + dayOfEra - 719468

/-- The date that many days after the first of January 1970. -/
def ofDays (n : Int) : Date :=
  let z := n + 719468
  let era := z / 146097
  let dayOfEra := z - era * 146097
  let yearOfEra := (dayOfEra - dayOfEra / 1460 + dayOfEra / 36524 - dayOfEra / 146096) / 365
  let dayOfYear := dayOfEra - (365 * yearOfEra + yearOfEra / 4 - yearOfEra / 100)
  let m := (5 * dayOfYear + 2) / 153
  let day := dayOfYear - (153 * m + 2) / 5 + 1
  let month := if m < 10 then m + 3 else m - 9
  let year := yearOfEra + era * 400 + (if month ≤ 2 then 1 else 0)
  ⟨year, month.toNat, day.toNat⟩

/-- The first day on which time is kept. -/
def earliest : Date := ⟨-262143, 1, 1⟩

/-- The last day on which time is kept. -/
def latest : Date := ⟨262142, 12, 31⟩

end Date

namespace Instant

def secondsPerDay : Int := 86400

def nanosPerSecond : Nat := 1000000000

/-- The order of instants: by second, then by fraction. -/
def le (a b : Instant) : Bool :=
  a.seconds < b.seconds || (a.seconds = b.seconds && a.nanos ≤ b.nanos)

/-- The later of two instants. -/
def latest (a b : Instant) : Instant := if le a b then b else a

/-- The day an instant falls on, in days from 1970. -/
def dayNumber (t : Instant) : Int := t.seconds / secondsPerDay

def date (t : Instant) : Date := Date.ofDays t.dayNumber

/-- The second within the day. -/
def secondOfDay (t : Instant) : Nat := (t.seconds % secondsPerDay).toNat

/-- Whether time is kept on the instant's day. -/
def inRange (t : Instant) : Bool :=
  Date.earliest.toDays ≤ t.dayNumber && t.dayNumber ≤ Date.latest.toDays

def ofSeconds? (s : Int) : Option Instant :=
  let t : Instant := ⟨s, 0⟩
  if t.inRange then some t else none

/-- The instant some days earlier, if time is kept then. A leap second is taken for the second after
it unless the instant stays the same. -/
def minusDays? (t : Instant) (days : Nat) : Option Instant :=
  let base : Instant :=
    if 0 < days && nanosPerSecond ≤ t.nanos then ⟨t.seconds + 1, t.nanos - nanosPerSecond⟩ else t
  let r : Instant := { base with seconds := base.seconds - days * secondsPerDay }
  if r.inRange then some r else none

/-- Nanoseconds from `b` to `a`. A leap second on the earlier side of the day adds its second. -/
def nanosSince (a b : Instant) : Int :=
  let adjust : Int :=
    if b.secondOfDay < a.secondOfDay then (if nanosPerSecond ≤ b.nanos then 1 else 0)
    else if a.secondOfDay < b.secondOfDay then (if nanosPerSecond ≤ a.nanos then -1 else 0)
    else 0
  (a.seconds - b.seconds + adjust) * nanosPerSecond + (a.nanos - b.nanos)

/-- Whole days from `b` to `a`, rounded toward zero. -/
def daysSince (a b : Instant) : Int := (nanosSince a b).tdiv (secondsPerDay * nanosPerSecond)

end Instant

end Steward
