import Steward.Instant

/-!
# Instants as text

The RFC 3339 form of an instant. It is written in universal time with a `Z`; it is read with any
offset, and also with a blank or a small `t` between date and time.
-/

namespace Steward

/-- How many digits of a second's fraction are written. -/
inductive Fraction where
  | none
  | micros
  | nanos
  /-- As many groups of three as needed. -/
  | asNeeded
deriving DecidableEq, Repr

namespace Instant

/-- A number with leading zeros up to a width. -/
def padded (width n : Nat) : String :=
  let ds := Nat.toDigits 10 n
  String.ofList (List.replicate (width - ds.length) '0' ++ ds)

/-- A year: four digits, and a sign before years that do not fit into four. -/
def yearText (y : Int) : String :=
  if 0 ≤ y && y ≤ 9999 then padded 4 y.toNat
  else (if y < 0 then "-" else "+") ++ padded 4 y.natAbs

def fractionText (f : Fraction) (nanos : Nat) : String :=
  match f with
  | .none => ""
  | .micros => "." ++ padded 6 (nanos / 1000)
  | .nanos => "." ++ padded 9 nanos
  | .asNeeded =>
    if nanos = 0 then ""
    else if nanos % 1000000 = 0 then "." ++ padded 3 (nanos / 1000000)
    else if nanos % 1000 = 0 then "." ++ padded 6 (nanos / 1000)
    else "." ++ padded 9 nanos

/-- The text of an instant. A leap second shows as second 60. -/
def rfc3339 (f : Fraction) (t : Instant) : String :=
  let d := t.date
  let s := t.secondOfDay
  let second := s % 60 + t.nanos / nanosPerSecond
  yearText d.year ++ "-" ++ padded 2 d.month ++ "-" ++ padded 2 d.day ++ "T" ++
    padded 2 (s / 3600) ++ ":" ++ padded 2 (s / 60 % 60) ++ ":" ++ padded 2 second ++
    fractionText f (t.nanos % nanosPerSecond) ++ "Z"

/-- To the second, as the index stores times. -/
def stamp (t : Instant) : String := t.rfc3339 .none

/-- A number of exactly `n` digits at the front, and the rest. -/
def readDigits (n : Nat) (acc : Nat) (cs : List Char) : Option (Nat × List Char) :=
  match n, cs with
  | 0, cs => some (acc, cs)
  | n + 1, c :: cs => if c.isDigit then readDigits n (acc * 10 + (c.toNat - 48)) cs else none
  | _ + 1, [] => none

/-- The rest after one of the given characters. -/
def readOne (allowed : List Char) : List Char → Option (List Char)
  | c :: cs => if allowed.contains c then some cs else none
  | [] => none

/-- A fraction of a second in nanoseconds: at least one digit, of which nine count. -/
def readFraction : List Char → Option (Nat × List Char)
  | '.' :: cs =>
    let ds := cs.takeWhile Char.isDigit
    if ds.isEmpty then none
    else
      let kept := ds.take 9
      let n := kept.foldl (fun n c => n * 10 + (c.toNat - 48)) 0
      some (n * Nat.pow 10 (9 - kept.length), cs.dropWhile Char.isDigit)
  | cs => some (0, cs)

/-- An offset from universal time in seconds: `Z`, or a sign, hours and minutes. The sign may be a
minus sign proper. -/
def readOffset : List Char → Option (Int × List Char)
  | c :: cs =>
    if c = 'Z' || c = 'z' then some (0, cs)
    else if c = '+' || c = '-' || c = '−' then do
      let (h, cs) ← readDigits 2 0 cs
      let cs ← readOne [':'] cs
      let (m, cs) ← readDigits 2 0 cs
      if 59 < m || 23 < h then none
      else
        let s : Int := h * 3600 + m * 60
        some (if c = '+' then s else -s, cs)
    else none
  | [] => none

/-- The instant of a date and a time of day at an offset, if there is such a date and time. -/
def ofParts? (d : Date) (hour minute second nanos : Nat) (offset : Int) : Option Instant :=
  if d.isValid && hour ≤ 23 && minute ≤ 59 && second ≤ 60 then
    let leap := if second = 60 then 1 else 0
    some
      { seconds := d.toDays * secondsPerDay + (hour * 3600 + minute * 60 + (second - leap) : Nat) - offset
        nanos := nanos + leap * nanosPerSecond }
  else none

/-- Reads the text of an instant. -/
def parseChars? (cs : List Char) : Option Instant := do
  let (year, cs) ← readDigits 4 0 cs
  let cs ← readOne ['-'] cs
  let (month, cs) ← readDigits 2 0 cs
  let cs ← readOne ['-'] cs
  let (day, cs) ← readDigits 2 0 cs
  let cs ← readOne ['T', 't', ' '] cs
  let (hour, cs) ← readDigits 2 0 cs
  let cs ← readOne [':'] cs
  let (minute, cs) ← readDigits 2 0 cs
  let cs ← readOne [':'] cs
  let (second, cs) ← readDigits 2 0 cs
  let (nanos, cs) ← readFraction cs
  let (offset, cs) ← readOffset cs
  if cs.isEmpty then ofParts? ⟨year, month, day⟩ hour minute second nanos offset else none

def parse? (s : String) : Option Instant := parseChars? s.toList

end Instant

end Steward
