import Steward.Json

/-!
# Reading JSON

Readers for the values that records are made of. Each takes the text from where the value starts and
gives the value and the rest. `Reader.skipValue` passes over a value of any kind and depth.
-/

namespace Steward.Json.Reader

/-- The four characters that may stand between values. -/
def isSpace (c : Char) : Bool := c = ' ' || c = '\n' || c = '\t' || c = '\r'

def skipSpace (cs : List Char) : List Char := cs.dropWhile isSpace

/-- The rest after a character, with space before it passed over. -/
def expect (c : Char) (cs : List Char) : Option (List Char) :=
  match skipSpace cs with
  | d :: rest => if d = c then some rest else none
  | [] => none

def hexValue? (c : Char) : Option Nat :=
  if c.isDigit then some (c.toNat - 48)
  else if 'a' ≤ c && c ≤ 'f' then some (c.toNat - 87)
  else if 'A' ≤ c && c ≤ 'F' then some (c.toNat - 55)
  else none

/-- Four hexadecimal digits. -/
def readHex4 : List Char → Option (Nat × List Char)
  | a :: b :: c :: d :: rest => do
    let a ← hexValue? a
    let b ← hexValue? b
    let c ← hexValue? c
    let d ← hexValue? d
    return (a * 4096 + b * 256 + c * 16 + d, rest)
  | _ => none

/-- The character for a letter after a backslash. -/
def simpleEscape? (c : Char) : Option Char :=
  match c with
  | '"' => some '"'
  | '\\' => some '\\'
  | '/' => some '/'
  | 'b' => some '\x08'
  | 'f' => some '\x0c'
  | 'n' => some '\n'
  | 'r' => some '\r'
  | 't' => some '\t'
  | _ => none

/-- The character of a `\u` escape, after its `u`. Halves of a surrogate pair must come together. -/
def readUnicode (cs : List Char) : Option (Char × List Char) := do
  let (n, rest) ← readHex4 cs
  if 0xDC00 ≤ n && n ≤ 0xDFFF then none
  else if 0xD800 ≤ n && n ≤ 0xDBFF then
    match rest with
    | '\\' :: 'u' :: rest => do
      let (m, rest) ← readHex4 rest
      if 0xDC00 ≤ m && m ≤ 0xDFFF then
        return (Char.ofNat ((n - 0xD800) * 1024 + (m - 0xDC00) + 0x10000), rest)
      else none
    | _ => none
  else return (Char.ofNat n, rest)

/-- The rest of a string after its opening quote, with at most `fuel` characters in it; `done` holds
the characters so far, last first. -/
def readStringFrom : Nat → List Char → List Char → Option (String × List Char)
  | 0, _, _ => none
  | _, _, [] => none
  | fuel + 1, done, c :: cs =>
    if c = '"' then some (String.ofList done.reverse, cs)
    else if c = '\\' then
      match cs with
      | 'u' :: rest =>
        match readUnicode rest with
        | some (d, rest) => readStringFrom fuel (d :: done) rest
        | none => none
      | e :: rest =>
        match simpleEscape? e with
        | some d => readStringFrom fuel (d :: done) rest
        | none => none
      | [] => none
    else if c.toNat < 0x20 then none
    else readStringFrom fuel (c :: done) cs

/-- A string. -/
def readString (cs : List Char) : Option (String × List Char) :=
  match skipSpace cs with
  | '"' :: rest => readStringFrom rest.length [] rest
  | _ => none

/-- Reads a word such as `true`. -/
def readWord (w : List Char) (cs : List Char) : Option (List Char) :=
  if w.isPrefixOf cs then some (cs.drop w.length) else none

def readBool (cs : List Char) : Option (Bool × List Char) :=
  let cs := skipSpace cs
  match readWord "true".toList cs with
  | some rest => some (true, rest)
  | none => (readWord "false".toList cs).map (false, ·)

/-- The largest count. -/
def maxCount : Nat := 18446744073709551615

/-- A count: decimal digits without leading zeros, up to `maxCount`. -/
def readCount (cs : List Char) : Option (Nat × List Char) :=
  let cs := skipSpace cs
  let ds := cs.takeWhile Char.isDigit
  let rest := cs.dropWhile Char.isDigit
  let n := ds.foldl (fun n c => n * 10 + (c.toNat - 48)) 0
  if ds.isEmpty || (ds.head? = some '0' && 1 < ds.length) || maxCount < n ||
      rest.head?.any fun c => ['.', 'e', 'E'].contains c then none
  else some (n, rest)

/-- A value that may be `null`. -/
def readOption {α : Type} (read : List Char → Option (α × List Char)) (cs : List Char) :
    Option (Option α × List Char) :=
  match readWord "null".toList (skipSpace cs) with
  | some rest => some (none, rest)
  | none => (read cs).map fun (a, rest) => (some a, rest)

/-- Items after the first, each behind a comma, up to the closing character; `done` holds the items
so far, last first. -/
def readMore {α : Type} (read : List Char → Option (α × List Char)) (close : Char) :
    Nat → List α → List Char → Option (List α × List Char)
  | 0, _, _ => none
  | fuel + 1, done, cs =>
    match skipSpace cs with
    | c :: rest =>
      if c = close then some (done.reverse, rest)
      else if c = ',' then
        match read rest with
        | some (a, rest) => readMore read close fuel (a :: done) rest
        | none => none
      else none
    | [] => none

/-- Items between an opening and a closing character, with commas between them. -/
def readItems {α : Type} (read : List Char → Option (α × List Char)) (opening close : Char)
    (cs : List Char) : Option (List α × List Char) := do
  let rest ← expect opening cs
  match expect close rest with
  | some after => return ([], after)
  | none =>
    let (a, rest) ← read rest
    readMore read close rest.length [a] rest

def readArray {α : Type} (read : List Char → Option (α × List Char)) :
    List Char → Option (List α × List Char) :=
  readItems read '[' ']'

/-- A name, a colon and a value. -/
def readField {α : Type} (read : String → List Char → Option (α × List Char)) (cs : List Char) :
    Option (α × List Char) := do
  let (name, rest) ← readString cs
  let rest ← expect ':' rest
  read name rest

/-- An object as the list of its fields, each read by its name. -/
def readObject {α : Type} (read : String → List Char → Option (α × List Char)) :
    List Char → Option (List α × List Char) := readItems (readField read) '\x7b' '\x7d'

/-- Passes over a string after its opening quote. Escapes must be well formed, but halves of
surrogate pairs may stand alone. -/
def skipString : Nat → List Char → Option (List Char)
  | 0, _ => none
  | _, [] => none
  | fuel + 1, c :: cs =>
    if c = '"' then some cs
    else if c = '\\' then
      match cs with
      | 'u' :: rest =>
        match readHex4 rest with
        | some (_, rest) => skipString fuel rest
        | none => none
      | e :: rest => if (simpleEscape? e).isSome then skipString fuel rest else none
      | [] => none
    else if c.toNat < 0x20 then none
    else skipString fuel cs

/-- Passes over digits, at least one. -/
def skipDigits (cs : List Char) : Option (List Char) :=
  if (cs.head?.any Char.isDigit) then some (cs.dropWhile Char.isDigit) else none

/-- Passes over a number. -/
def skipNumber (cs : List Char) : Option (List Char) := do
  let cs := if cs.head? = some '-' then cs.drop 1 else cs
  let cs ←
    match cs with
    | '0' :: rest => if rest.head?.any Char.isDigit then none else some rest
    | _ => skipDigits cs
  let cs ← if cs.head? = some '.' then skipDigits (cs.drop 1) else some cs
  match cs with
  | c :: rest =>
    if c = 'e' || c = 'E' then
      skipDigits (if rest.head? = some '+' || rest.head? = some '-' then rest.drop 1 else rest)
    else return cs
  | [] => return cs

/-- Passes over a value that is no array or object. -/
def skipScalar (cs : List Char) : Option (List Char) :=
  match cs with
  | '"' :: rest => skipString rest.length rest
  | 'n' :: _ => readWord "null".toList cs
  | 't' :: _ => readWord "true".toList cs
  | 'f' :: _ => readWord "false".toList cs
  | _ => skipNumber cs

/-- What a reader that passes over values waits for. -/
inductive Awaiting where
  /-- A value. -/
  | value
  /-- The first item or the end of what was just opened. -/
  | first
  /-- A comma or the end of what is open. -/
  | next
deriving DecidableEq, Repr

/-- Passes over the name and colon of an object's field; in an array there is nothing to pass. -/
def skipName (inObject : Bool) (cs : List Char) : Option (List Char) :=
  if inObject then
    match skipSpace cs with
    | '"' :: rest => do
      let rest ← skipString rest.length rest
      expect ':' rest
    | _ => none
  else some cs

/-- Passes over a value; `open_` tells for each array or object around, innermost first, whether it is
an object. -/
def skipFrom : Nat → List Bool → Awaiting → List Char → Option (List Char)
  | 0, _, _, _ => none
  | fuel + 1, open_, .value, cs =>
    match skipSpace cs with
    | '[' :: rest => skipFrom fuel (false :: open_) .first rest
    | '\x7b' :: rest => skipFrom fuel (true :: open_) .first rest
    | cs =>
      match skipScalar cs with
      | some rest => if open_.isEmpty then some rest else skipFrom fuel open_ .next rest
      | none => none
  | _ + 1, [], _, _ => none
  | fuel + 1, inObject :: outer, awaiting, cs =>
    match skipSpace cs with
    | [] => none
    | c :: rest =>
      if c = (if inObject then '\x7d' else ']') then
        if outer.isEmpty then some rest else skipFrom fuel outer .next rest
      else if awaiting = .next then
        if c = ',' then
          match skipName inObject rest with
          | some rest => skipFrom fuel (inObject :: outer) .value rest
          | none => none
        else none
      else
        match skipName inObject (c :: rest) with
        | some rest => skipFrom fuel (inObject :: outer) .value rest
        | none => none

/-- Passes over any value. -/
def skipValue (cs : List Char) : Option (List Char) := skipFrom (2 * cs.length + 2) [] .value cs

/-- Reads a whole text, with nothing but space around the value. -/
def readAll {α : Type} (read : List Char → Option (α × List Char)) (cs : List Char) : Option α :=
  match read cs with
  | some (a, rest) => if (skipSpace rest).isEmpty then some a else none
  | none => none

end Steward.Json.Reader
