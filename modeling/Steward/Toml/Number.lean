/-!
# Numbers and times in TOML

Integers keep their value. Floats and times are checked for their form only, since no setting has
such a value; a float must still be finite unless it is negative or says otherwise.
-/

namespace Steward.Toml

/-- Digits of a kind, with single underscores between them; the digits and the rest. -/
def readDigits (isDigit : Char → Bool) : List Char → Option (List Char × List Char)
  | [] => none
  | c :: cs => if isDigit c then go isDigit [c] cs else none
where
  /-- Further digits; `done` holds those before, last first. -/
  go (isDigit : Char → Bool) (done : List Char) : List Char → Option (List Char × List Char)
    | [] => some (done.reverse, [])
    | '_' :: c :: cs => if isDigit c then go isDigit (c :: done) cs else none
    | c :: cs =>
      if isDigit c then go isDigit (c :: done) cs
      else if c = '_' then none
      else some (done.reverse, c :: cs)

def isHexDigit (c : Char) : Bool :=
  c.isDigit || ('a' ≤ c && c ≤ 'f') || ('A' ≤ c && c ≤ 'F')

def isOctDigit (c : Char) : Bool := '0' ≤ c && c ≤ '7'

def isBinDigit (c : Char) : Bool := c = '0' || c = '1'

/-- The value of a digit. -/
def digitValue (c : Char) : Nat :=
  if c.isDigit then c.toNat - 48 else if 'a' ≤ c then c.toNat - 87 else c.toNat - 55

def digitsValue (base : Nat) (ds : List Char) : Nat :=
  ds.foldl (fun n c => n * base + digitValue c) 0

/-- The largest integer. -/
def maxInteger : Int := 9223372036854775807

/-- An integer, if it is in range. -/
def inRange? (n : Int) : Option Int := if -maxInteger - 1 ≤ n && n ≤ maxInteger then some n else none

/-- Sign and digits of a decimal integer, which has no leading zeros. -/
def readDecimal (cs : List Char) : Option ((Bool × List Char) × List Char) :=
  let (negative, cs) :=
    match cs with
    | '-' :: cs => (true, cs)
    | '+' :: cs => (false, cs)
    | cs => (false, cs)
  match cs with
  | '0' :: rest => some ((negative, ['0']), rest)
  | cs => (readDigits Char.isDigit cs).map fun (ds, rest) => ((negative, ds), rest)

/-- An integer in any base. -/
def readInteger (cs : List Char) : Option (Int × List Char) :=
  let based (isDigit : Char → Bool) (base : Nat) (cs : List Char) : Option (Int × List Char) :=
    (readDigits isDigit cs).bind fun (ds, rest) =>
      (inRange? (digitsValue base ds)).map (·, rest)
  match cs with
  | '0' :: 'x' :: cs => based isHexDigit 16 cs
  | '0' :: 'o' :: cs => based isOctDigit 8 cs
  | '0' :: 'b' :: cs => based isBinDigit 2 cs
  | cs =>
    (readDecimal cs).bind fun ((negative, ds), rest) =>
      let n : Int := digitsValue 10 ds
      (inRange? (if negative then -n else n)).map (·, rest)

/-- Whether a decimal is too large for a float: at least half a step above the largest one. -/
def isHuge (mantissa : Nat) (exponent : Int) : Bool :=
  let size : Int := (Nat.toDigits 10 mantissa).length + exponent
  let bound : Nat := (Nat.pow 2 54 - 1) * Nat.pow 2 970
  if mantissa = 0 || size < 309 then false
  else if 310 < size then true
  else
    match exponent with
    | .ofNat e => bound ≤ mantissa * Nat.pow 10 e
    | .negSucc e => bound * Nat.pow 10 (e + 1) ≤ mantissa

/-- An exponent with its sign, and the rest. -/
def readExponent (cs : List Char) : Option (Int × List Char) :=
  let (negative, cs) :=
    match cs with
    | '-' :: cs => (true, cs)
    | '+' :: cs => (false, cs)
    | cs => (false, cs)
  (readDigits Char.isDigit cs).map fun (ds, rest) =>
    let n : Int := digitsValue 10 ds
    (if negative then -n else n, rest)

/-- The fraction of a float, if there is one. -/
def readFraction (cs : List Char) : Option (List Char × List Char) :=
  match cs with
  | '.' :: cs => readDigits Char.isDigit cs
  | cs => some ([], cs)

/-- The rest after a float: an integer part with a fraction, an exponent or both. -/
def skipFloat (cs : List Char) : Option (List Char) := do
  let ((negative, ds), rest) ← readDecimal cs
  let (fraction, rest') ← readFraction rest
  let (exponent, rest'') ←
    match rest' with
    | 'e' :: cs => readExponent cs
    | 'E' :: cs => readExponent cs
    | cs => if fraction.isEmpty then none else some (0, cs)
  if !negative && isHuge (digitsValue 10 (ds ++ fraction)) (exponent - fraction.length) then none
  else return rest''

/-- The rest after a word at the start. -/
def skipWord (w : String) (cs : List Char) : Option (List Char) :=
  if w.toList.isPrefixOf cs then some (cs.drop w.length) else none

/-- The rest after `inf` or `nan`, with or without a sign. -/
def skipSpecial (cs : List Char) : Option (List Char) :=
  let cs :=
    match cs with
    | '-' :: cs => cs
    | '+' :: cs => cs
    | cs => cs
  (skipWord "inf" cs).or (skipWord "nan" cs)

/-- A number of exactly `n` digits. -/
def readFixed (n : Nat) (acc : Nat) (cs : List Char) : Option (Nat × List Char) :=
  match n, cs with
  | 0, cs => some (acc, cs)
  | n + 1, c :: cs => if c.isDigit then readFixed n (acc * 10 + digitValue c) cs else none
  | _ + 1, [] => none

def skipChar (c : Char) : List Char → Option (List Char)
  | d :: cs => if d = c then some cs else none
  | [] => none

def daysInMonth (year month : Nat) : Nat :=
  if month = 2 then
    if year % 4 = 0 && (year % 100 ≠ 0 || year % 400 = 0) then 29 else 28
  else if [4, 6, 9, 11].contains month then 30
  else 31

/-- The rest after a date. -/
def skipDate (cs : List Char) : Option (List Char) := do
  let (year, cs) ← readFixed 4 0 cs
  let cs ← skipChar '-' cs
  let (month, cs) ← readFixed 2 0 cs
  let cs ← skipChar '-' cs
  let (day, cs) ← readFixed 2 0 cs
  if 1 ≤ month && month ≤ 12 && 1 ≤ day && day ≤ daysInMonth year month then return cs else none

/-- The rest after a time of day. -/
def skipTime (cs : List Char) : Option (List Char) := do
  let (hour, cs) ← readFixed 2 0 cs
  let cs ← skipChar ':' cs
  let (minute, cs) ← readFixed 2 0 cs
  let cs ← skipChar ':' cs
  let (second, cs) ← readFixed 2 0 cs
  if hour ≤ 23 && minute ≤ 59 && second ≤ 60 then
    match cs with
    | '.' :: rest => if rest.head?.any Char.isDigit then return rest.dropWhile Char.isDigit else none
    | cs => return cs
  else none

/-- The rest after an offset, if there is one; nothing if it is malformed. -/
def skipOffset (cs : List Char) : Option (List Char) :=
  match cs with
  | 'Z' :: rest => some rest
  | 'z' :: rest => some rest
  | c :: rest =>
    if c = '+' || c = '-' then do
      let (hour, rest) ← readFixed 2 0 rest
      let rest ← skipChar ':' rest
      let (minute, rest) ← readFixed 2 0 rest
      if hour ≤ 23 && minute ≤ 59 then return rest else none
    else some cs
  | [] => some cs

/-- The rest after a date, a date and time, or a time. -/
def skipDateTime (cs : List Char) : Option (List Char) :=
  match skipDate cs with
  | none => skipTime cs
  | some rest =>
    match rest with
    | c :: more =>
      if c = 'T' || c = 't' || c = ' ' then
        match skipTime more with
        | some after => skipOffset after
        | none => some rest
      else some rest
    | [] => some rest

end Steward.Toml
