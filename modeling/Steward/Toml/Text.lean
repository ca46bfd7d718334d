/-!
# Text in TOML

How TOML writes texts: as basic strings with escapes, or as literal strings without, on one line or
over several. The writer takes the plainest form that a text allows.
-/

namespace Steward.Toml

/-- Whether a character may stand in a text as it is, quotes and backslashes aside. -/
def isPlain (c : Char) : Bool := c = '\t' || (0x20 ≤ c.toNat && c.toNat ≠ 0x7f)

def hexValue? (c : Char) : Option Nat :=
  if c.isDigit then some (c.toNat - 48)
  else if 'a' ≤ c && c ≤ 'f' then some (c.toNat - 87)
  else if 'A' ≤ c && c ≤ 'F' then some (c.toNat - 55)
  else none

/-- A number of exactly `n` hexadecimal digits. -/
def readHex (n : Nat) (acc : Nat) (cs : List Char) : Option (Nat × List Char) :=
  match n, cs with
  | 0, cs => some (acc, cs)
  | n + 1, c :: cs =>
    match hexValue? c with
    | some d => readHex n (acc * 16 + d) cs
    | none => none
  | _ + 1, [] => none

/-- The character with a number, if there is one. -/
def charOf? (n : Nat) : Option Char := if n.isValidChar then some (Char.ofNat n) else none

/-- The character that an escape stands for, after its backslash. -/
def readEscape : List Char → Option (Char × List Char)
  | 'b' :: cs => some ('\x08', cs)
  | 't' :: cs => some ('\t', cs)
  | 'n' :: cs => some ('\n', cs)
  | 'f' :: cs => some ('\x0c', cs)
  | 'r' :: cs => some ('\r', cs)
  | '"' :: cs => some ('"', cs)
  | '\\' :: cs => some ('\\', cs)
  | 'u' :: cs => (readHex 4 0 cs).bind fun (n, rest) => (charOf? n).map (·, rest)
  | 'U' :: cs => (readHex 8 0 cs).bind fun (n, rest) => (charOf? n).map (·, rest)
  | _ => none

/-- The rest after a line break. -/
def newline? : List Char → Option (List Char)
  | '\n' :: cs => some cs
  | '\r' :: '\n' :: cs => some cs
  | _ => none

def isWs (c : Char) : Bool := c = ' ' || c = '\t'

def skipWs (cs : List Char) : List Char := cs.dropWhile isWs

/-- A basic string after its opening quote; `done` holds its characters so far, last first. -/
def readBasic : Nat → List Char → List Char → Option (List Char × List Char)
  | 0, _, _ => none
  | _, _, [] => none
  | fuel + 1, done, c :: cs =>
    if c = '"' then some (done.reverse, cs)
    else if c = '\\' then
      match readEscape cs with
      | some (d, rest) => readBasic fuel (d :: done) rest
      | none => none
    else if isPlain c then readBasic fuel (c :: done) cs
    else none

/-- A literal string after its opening quote. -/
def readLiteral (done : List Char) : List Char → Option (List Char × List Char)
  | [] => none
  | c :: cs =>
    if c = '\x27' then some (done.reverse, cs)
    else if isPlain c then readLiteral (c :: done) cs
    else none

/-- What follows a backslash at the end of a line: the break and all space after it. -/
def continued? (cs : List Char) : Option (List Char) :=
  match newline? (skipWs cs) with
  | some rest => some (skipBreaks rest.length rest)
  | none => none
where
  /-- Passes over blanks and line breaks. -/
  skipBreaks : Nat → List Char → List Char
    | 0, cs => cs
    | fuel + 1, cs =>
      match newline? (skipWs cs) with
      | some rest => skipBreaks fuel rest
      | none => skipWs cs

/-- A string over several lines after its opening quotes and the break that may follow them. `quote`
is its kind of quote; three of them end it, and up to two before these belong to the text. Escapes
count in basic strings only. -/
def readMulti (quote : Char) : Nat → List Char → List Char → Option (List Char × List Char)
  | 0, _, _ => none
  | fuel + 1, done, cs =>
    match cs with
    | [] => none
    | c :: rest =>
      if c = quote then
        let run := (cs.takeWhile (· = quote)).length
        if run < 3 then readMulti quote fuel (List.replicate run quote ++ done) (cs.drop run)
        else if run ≤ 5 then some ((List.replicate (run - 3) quote ++ done).reverse, cs.drop run)
        else none
      else if c = '\\' && quote = '"' then
        match continued? rest with
        | some rest => readMulti quote fuel done rest
        | none =>
          match readEscape rest with
          | some (d, rest) => readMulti quote fuel (d :: done) rest
          | none => none
      else
        match newline? cs with
        | some rest => readMulti quote fuel ('\n' :: done) rest
        | none => if isPlain c then readMulti quote fuel (c :: done) rest else none

/-- Drops a line break at the start. -/
def dropBreak (cs : List Char) : List Char := (newline? cs).getD cs

/-- A string of any kind. -/
def readString : List Char → Option (List Char × List Char)
  | '"' :: '"' :: '"' :: cs => readMulti '"' (cs.length + 1) [] (dropBreak cs)
  | '\x27' :: '\x27' :: '\x27' :: cs => readMulti '\x27' (cs.length + 1) [] (dropBreak cs)
  | '"' :: cs => readBasic cs.length [] cs
  | '\x27' :: cs => readLiteral [] cs
  | _ => none

/-! ## Writing -/

/-- The longest run of a character. -/
def longestRun (q : Char) (run best : Nat) : List Char → Nat
  | [] => best
  | c :: cs => if c = q then longestRun q (run + 1) (max best (run + 1)) cs else longestRun q 0 best cs

/-- What a text holds that not every form can take. -/
structure Demands where
  singleQuotes : Nat
  doubleQuotes : Nat
  /-- Control characters that only an escape can give. -/
  controls : Bool
  backslash : Bool
  newline : Bool
deriving DecidableEq, Repr

def demands (cs : List Char) : Demands where
  singleQuotes := longestRun '\x27' 0 0 cs
  doubleQuotes := longestRun '"' 0 0 cs
  controls := cs.any fun c => c ≠ '\n' && !isPlain c
  backslash := cs.contains '\\'
  newline := cs.contains '\n'

/-- The forms of a string. -/
inductive Form where
  | basic
  | literal
  | multiBasic
  | multiLiteral
deriving DecidableEq, Repr

/-- The form that a text is written in. -/
def formOf (d : Demands) : Form :=
  if !d.controls && !d.backslash && d.doubleQuotes = 0 && !d.newline then .basic
  else if !d.controls && d.singleQuotes = 0 && !d.newline then .literal
  else if !d.controls && !d.backslash && d.doubleQuotes ≤ 2 then .multiBasic
  else if !d.controls && d.singleQuotes ≤ 2 then .multiLiteral
  else if d.newline then .multiBasic
  else .basic

def hexDigit (n : Nat) : Char := ((Nat.digitChar (n % 16)).toUpper)

/-- The escape of a control character. -/
def controlEscape (c : Char) : List Char :=
  match c with
  | '\x08' => ['\\', 'b']
  | '\t' => ['\\', 't']
  | '\n' => ['\\', 'n']
  | '\x0c' => ['\\', 'f']
  | '\r' => ['\\', 'r']
  | _ => ['\\', 'u', '0', '0', hexDigit (c.toNat / 16), hexDigit c.toNat]

/-- The inside of a basic string. Up to `allowed` quotes in a row stay as they are, the next one is
escaped; `run` of them have just been written. -/
def escaped (multi : Bool) (allowed : Nat) (run : Nat) : List Char → List Char
  | [] => []
  | c :: cs =>
    if c = '"' then
      if run < allowed then '"' :: escaped multi allowed (run + 1) cs
      else '\\' :: '"' :: escaped multi allowed 0 cs
    else if c = '\\' then '\\' :: '\\' :: escaped multi allowed 0 cs
    else if c = '\n' && multi then '\n' :: escaped multi allowed 0 cs
    else if c = '\t' || !isPlain c then controlEscape c ++ escaped multi allowed 0 cs
    else c :: escaped multi allowed 0 cs

/-- A text as a string. -/
def stringText (cs : List Char) : List Char :=
  let d := demands cs
  let start := if d.newline then ['\n'] else []
  match formOf d with
  | .basic => '"' :: (escaped false 0 0 cs ++ ['"'])
  | .literal => '\x27' :: (cs ++ ['\x27'])
  | .multiBasic => ['"', '"', '"'] ++ start ++ escaped true 2 0 cs ++ ['"', '"', '"']
  | .multiLiteral => ['\x27', '\x27', '\x27'] ++ start ++ cs ++ ['\x27', '\x27', '\x27']

end Steward.Toml
