/-!
# JSON values and their text

Values as reports and records carry them: numbers are integers and objects keep the order of their
fields. `Json.compact` writes a value on one line, `Json.pretty` over several.
-/

namespace Steward

inductive Json where
  | null
  | bool (b : Bool)
  | int (n : Int)
  | str (s : String)
  | arr (items : List Json)
  | obj (fields : List (String × Json))
deriving Repr, Inhabited

namespace Json

def nat (n : Nat) : Json := .int n

/-- A list of texts. -/
def strs (xs : List String) : Json := .arr (xs.map .str)

/-- Counts by name. -/
def counts (m : List (String × Nat)) : Json := .obj (m.map fun (k, n) => (k, .nat n))

/-- A value that may be missing, as `null`. -/
def ofOption {α : Type} (f : α → Json) : Option α → Json
  | none => .null
  | some a => f a

/-- A field that is left out when there is no value. -/
def field? {α : Type} (name : String) (f : α → Json) : Option α → List (String × Json)
  | none => []
  | some a => [(name, f a)]

def hexDigit (n : Nat) : Char := (Nat.digitChar (n % 16))

/-- A character inside a JSON string. Only quotes, backslashes and control characters are escaped. -/
def escapeChar (c : Char) : List Char :=
  match c with
  | '"' => ['\\', '"']
  | '\\' => ['\\', '\\']
  | '\x08' => ['\\', 'b']
  | '\x0c' => ['\\', 'f']
  | '\n' => ['\\', 'n']
  | '\r' => ['\\', 'r']
  | '\t' => ['\\', 't']
  | _ =>
    if c.toNat < 0x20 then ['\\', 'u', '0', '0', hexDigit (c.toNat / 16), hexDigit c.toNat] else [c]

/-- A text as a JSON string. -/
def quoted (s : List Char) : List Char := '"' :: (s.flatMap escapeChar ++ ['"'])

/-- The decimal digits of a number. -/
def digits (n : Nat) : List Char := Nat.toDigits 10 n

def intText : Int → List Char
  | .ofNat n => digits n
  | .negSucc n => '-' :: digits (n + 1)

/-- The texts one after the other, with `sep` between them. -/
def separated (sep : List Char) : List (List Char) → List Char
  | [] => []
  | [x] => x
  | x :: y :: rest => x ++ sep ++ separated sep (y :: rest)

mutual

def compactChars : Json → List Char
  | null => "null".toList
  | bool true => "true".toList
  | bool false => "false".toList
  | int n => intText n
  | str s => quoted s.toList
  | arr items => '[' :: (separated [','] (compactItems items) ++ [']'])
  | obj fields => '\x7b' :: (separated [','] (compactFields fields) ++ ['\x7d'])

def compactItems : List Json → List (List Char)
  | [] => []
  | v :: rest => compactChars v :: compactItems rest

def compactFields : List (String × Json) → List (List Char)
  | [] => []
  | (k, v) :: rest => (quoted k.toList ++ ':' :: compactChars v) :: compactFields rest

end

/-- A value on one line, without spaces. -/
def compact (j : Json) : String := String.ofList j.compactChars

/-- A line break and the indentation of a depth. -/
def newline (depth : Nat) : List Char := '\n' :: List.replicate (2 * depth) ' '

mutual

def prettyChars (depth : Nat) : Json → List Char
  | arr [] => ['[', ']']
  | arr (v :: rest) =>
    '[' :: (newline (depth + 1) ++
      separated (',' :: newline (depth + 1)) (prettyItems (depth + 1) (v :: rest)) ++
      newline depth ++ [']'])
  | obj [] => ['\x7b', '\x7d']
  | obj (f :: rest) =>
    '\x7b' :: (newline (depth + 1) ++
      separated (',' :: newline (depth + 1)) (prettyFields (depth + 1) (f :: rest)) ++
      newline depth ++ ['\x7d'])
  | null => "null".toList
  | bool true => "true".toList
  | bool false => "false".toList
  | int n => intText n
  | str s => quoted s.toList

def prettyItems (depth : Nat) : List Json → List (List Char)
  | [] => []
  | v :: rest => prettyChars depth v :: prettyItems depth rest

def prettyFields (depth : Nat) : List (String × Json) → List (List Char)
  | [] => []
  | (k, v) :: rest =>
    (quoted k.toList ++ ':' :: ' ' :: prettyChars depth v) :: prettyFields depth rest

end

/-- A value over several lines, two spaces to a level. -/
def pretty (j : Json) : String := String.ofList (j.prettyChars 0)

end Json

end Steward
