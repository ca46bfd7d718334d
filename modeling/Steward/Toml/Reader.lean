import Steward.Toml
import Steward.Toml.Number
import Steward.Toml.Text

/-!
# Reading TOML

Reads a whole document, or nothing if any part of it is malformed. Values nest to a limited depth
and dotted keys have limited length.
-/

namespace Steward.Toml

/-- Values may not nest this deep, and keys may not have this many parts. -/
def maxDepth : Nat := 80

/-- The rest of the line after a comment, which may hold no control characters. -/
def skipComment (cs : List Char) : List Char :=
  match cs with
  | '#' :: rest => rest.dropWhile isPlain
  | cs => cs

/-- The rest after the end of a line: blanks, a comment, and a break or the end of the text. -/
def endLine (cs : List Char) : Option (List Char) :=
  match skipComment (skipWs cs) with
  | [] => some []
  | cs => newline? cs

/-- Passes over blanks, line breaks and comments. -/
def skipTrivia : Nat → List Char → List Char
  | 0, cs => cs
  | fuel + 1, cs =>
    match newline? (skipComment (skipWs cs)) with
    | some rest => skipTrivia fuel rest
    | none => skipWs cs

def isBareChar (c : Char) : Bool := c.isAlphanum || c = '_' || c = '-'

/-- One part of a key: bare, or a string on one line. -/
def readSimpleKey (cs : List Char) : Option (String × List Char) :=
  match cs with
  | '"' :: rest => (readBasic rest.length [] rest).map fun (k, rest) => (String.ofList k, rest)
  | '\x27' :: rest => (readLiteral [] rest).map fun (k, rest) => (String.ofList k, rest)
  | cs =>
    let k := cs.takeWhile isBareChar
    if k.isEmpty then none else some (String.ofList k, cs.dropWhile isBareChar)

/-- The parts of a key with dots between them, at most `fuel` of them. -/
def readKeyParts : Nat → List Char → Option (List String × List Char)
  | 0, _ => none
  | fuel + 1, cs => do
    let (k, rest) ← readSimpleKey (skipWs cs)
    match skipWs rest with
    | '.' :: rest =>
      let (ks, rest) ← readKeyParts fuel rest
      return (k :: ks, rest)
    | rest => return ([k], rest)

/-- A key as the path before its last part, and that part. -/
def readKey (cs : List Char) : Option ((List String × String) × List Char) := do
  let (parts, rest) ← readKeyParts (maxDepth - 1) cs
  let last ← parts.getLast?
  return ((parts.dropLast, last), rest)

/-- Items between brackets, with commas between them and perhaps one after the last. -/
def readItems (readValue : List Char → Option (Toml × List Char)) :
    Nat → List Toml → List Char → Option (List Toml × List Char)
  | 0, _, _ => none
  | fuel + 1, done, cs =>
    match skipTrivia cs.length cs with
    | ']' :: rest => some (done.reverse, rest)
    | cs =>
      match readValue cs with
      | none => none
      | some (v, rest) =>
        match skipTrivia rest.length rest with
        | ',' :: rest => readItems readValue fuel (v :: done) rest
        | ']' :: rest => some ((v :: done).reverse, rest)
        | _ => none

/-- A key, an equals sign and a value. -/
def readPair (readValue : List Char → Option (Toml × List Char)) (cs : List Char) :
    Option (((List String × String) × Toml) × List Char) := do
  let (key, rest) ← readKey cs
  let rest ← skipChar '=' rest
  let (v, rest) ← readValue (skipWs rest)
  return ((key, v), rest)

/-- The pairs of an inline table after its opening brace, added to a table one by one. -/
def readPairs (readValue : List Char → Option (Toml × List Char)) :
    Nat → Toml → List Char → Option (Toml × List Char)
  | 0, _, _ => none
  | fuel + 1, t, cs =>
    match readPair readValue cs with
    | none => none
    | some (((path, key), v), rest) =>
      match addInline path key v t with
      | none => none
      | some t =>
        match skipWs rest with
        | ',' :: rest => readPairs readValue fuel t rest
        | '\x7d' :: rest => some (t, rest)
        | _ => none

/-- A number or a time. -/
def readNumber (cs : List Char) : Option (Toml × List Char) :=
  match skipDateTime cs with
  | some rest => some (.dateTime, rest)
  | none =>
    match (skipFloat cs).or (skipSpecial cs) with
    | some rest => some (.float, rest)
    | none => (readInteger cs).map fun (n, rest) => (.integer n, rest)

/-- A value with at most `depth` arrays and inline tables around what is inside. -/
def readValue : Nat → List Char → Option (Toml × List Char)
  | depth, cs =>
    match cs with
    | [] => none
    | c :: rest =>
      if c = '"' || c = '\x27' then
        (readString cs).map fun (s, rest) => (.string (String.ofList s), rest)
      else if c = '[' then
        match depth with
        | 0 => none
        | depth + 1 =>
          (readItems (readValue depth) (rest.length + 1) [] rest).map fun (items, rest) =>
            (.array items, rest)
      else if c = '\x7b' then
        match depth with
        | 0 => none
        | depth + 1 =>
          match skipWs rest with
          | '\x7d' :: rest => some (.inline false [], rest)
          | rest => readPairs (readValue depth) (rest.length + 1) (.inline false []) rest
      else if c = 't' then (skipWord "true" cs).map (.boolean true, ·)
      else if c = 'f' then (skipWord "false" cs).map (.boolean false, ·)
      else readNumber cs

/-- A line with a key and a value. -/
def readSetting (d : Draft) (cs : List Char) : Option (Draft × List Char) := do
  let (((path, key), v), rest) ← readPair (readValue (maxDepth - 1)) cs
  let rest ← endLine rest
  let d ← d.add path key v
  return (d, rest)

/-- A line with a header. -/
def readHeader (d : Draft) (cs : List Char) : Option (Draft × List Char) :=
  match cs with
  | '[' :: '[' :: cs => do
    let ((path, key), rest) ← readKey cs
    let rest ← skipWord "]]" rest
    let rest ← endLine rest
    let d ← d.openItem path key
    return (d, rest)
  | '[' :: cs => do
    let ((path, key), rest) ← readKey cs
    let rest ← skipChar ']' rest
    let rest ← endLine rest
    let d ← d.openTable path key
    return (d, rest)
  | _ => none

/-- The lines of a document, added to a draft one by one. -/
def readLines : Nat → Draft → List Char → Option Toml
  | 0, _, _ => none
  | fuel + 1, d, cs =>
    match skipWs cs with
    | [] => some d.doc
    | '[' :: rest =>
      match readHeader d ('[' :: rest) with
      | some (d, rest) => readLines fuel d rest
      | none => none
    | c :: rest =>
      if c = '#' || c = '\n' || c = '\r' then
        match endLine (c :: rest) with
        | some rest => readLines fuel d rest
        | none => none
      else
        match readSetting d (c :: rest) with
        | some (d, rest) => readLines fuel d rest
        | none => none

/-- Reads a document; a byte order mark at its start does not count. -/
def parse? (cs : List Char) : Option Toml :=
  let cs := if cs.head? = some '\ufeff' then cs.drop 1 else cs
  readLines (cs.length + 1) {} cs

end Steward.Toml
