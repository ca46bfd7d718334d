import Steward.Config
import Steward.Error
import Steward.FileTree
import Steward.Toml.Reader

/-!
# Configuration files

Settings as a TOML document. Reading takes what is set and leaves the rest as it is by default;
unknown keys do not count. A group of settings may also be given as an array of its values in order.
-/

namespace Steward.Config

/-! ## Writing -/

/-- A count as an integer of the file, if it is in range. -/
def writeCount? (n : Nat) : Option (List Char) :=
  if (n : Int) ≤ Toml.maxInteger then some (Json.digits n) else none

/-- Texts as an array: more than one go on lines of their own. -/
def writeTexts (xs : List String) : List Char :=
  let items := xs.map fun x => Toml.stringText x.toList
  match items with
  | [] => ['[', ']']
  | [x] => '[' :: (x ++ [']'])
  | items =>
    '[' :: '\n' :: (items.flatMap fun x => "    ".toList ++ x ++ [',', '\n']) ++ [']']

/-- A line with a key and a value. -/
def writeLine (key : String) (value : List Char) : List Char :=
  key.toList ++ " = ".toList ++ value ++ ['\n']

/-- The settings as a document, if all counts are in range. -/
def toTomlChars? (c : Config) : Option (List Char) := do
  let count (key : String) (n : Nat) : Option (List Char) := (writeCount? n).map (writeLine key)
  let text (key s : String) : List Char := writeLine key (Toml.stringText s.toList)
  let maxFileBytes ← count "max_file_bytes" c.scanner.maxFileBytes
  let snippetLen ← count "snippet_len" c.scanner.snippetLen
  let maxAttempts ← count "max_attempts" c.fixer.maxAttempts
  let backoffMs ← count "backoff_ms" c.fixer.backoffMs
  let historyDays ← count "history_days" c.memory.historyDays
  let staleTodoDays ← count "stale_todo_days" c.memory.staleTodoDays
  let hotspotThreshold ← count "hotspot_threshold" c.memory.hotspotThreshold
  return "[scanner]\n".toList ++ maxFileBytes ++
    writeLine "extensions" (writeTexts c.scanner.extensions) ++
    writeLine "ignored_dirs" (writeTexts c.scanner.ignoredDirs) ++ snippetLen ++
    "\n[fixer]\n".toList ++ maxAttempts ++ backoffMs ++
    "\n[memory]\n".toList ++ text "db_file" c.memory.dbFile ++ historyDays ++ staleTodoDays ++
    hotspotThreshold ++
    "\n[audit]\n".toList ++ text "log_file" c.audit.logFile

/-- What is said when a count is too large for the file. -/
def outOfRange : String := "serializing CoreConfig: out-of-range value for u64 type"

def toToml (c : Config) : Except String String :=
  match c.toTomlChars? with
  | some cs => .ok (String.ofList cs)
  | none => .error outOfRange

/-! ## Reading -/

/-- The largest value of a setting of 32 bits. -/
def max32 : Nat := 4294967295

/-- A count no larger than a bound. -/
def readCount (bound : Nat) : Toml → Option Nat
  | .integer n => if 0 ≤ n && n ≤ bound then some n.toNat else none
  | _ => none

/-- A count of 64 bits, of which the file holds the lower half of the range. -/
def readLong : Toml → Option Nat := readCount Toml.maxInteger.toNat

def readText : Toml → Option String
  | .string s => some s
  | _ => none

def readTexts : Toml → Option (List String)
  | .array items => items.mapM readText
  | _ => none

/-- What a group of settings is given as: values by key, or values in order. -/
inductive Group where
  | keyed (fields : List (String × Toml))
  | listed (items : List Toml)

/-- The group that a value gives. A time gives one without any settings. -/
def group? : Toml → Option Group
  | .table _ _ fields => some (.keyed fields)
  | .inline _ fields => some (.keyed fields)
  | .array items => some (.listed items)
  | .tables items => some (.listed items)
  | .dateTime => some (.keyed [])
  | _ => none

namespace Group

/-- The setting with a key and a position, or the default if it is not set. -/
def get {α : Type} (g : Group) (key : String) (position : Nat) (read : Toml → Option α)
    (default : α) : Option α :=
  let found :=
    match g with
    | keyed fields => fields.lookup key
    | listed items => items[position]?
  match found with
  | none => some default
  | some v => read v

end Group

def readScanner (v : Toml) : Option Scanner := do
  let g ← group? v
  let d : Scanner := {}
  return {
    maxFileBytes := ← g.get "max_file_bytes" 0 readLong d.maxFileBytes
    extensions := ← g.get "extensions" 1 readTexts d.extensions
    ignoredDirs := ← g.get "ignored_dirs" 2 readTexts d.ignoredDirs
    snippetLen := ← g.get "snippet_len" 3 readLong d.snippetLen }

def readFixer (v : Toml) : Option Fixer := do
  let g ← group? v
  let d : Fixer := {}
  return {
    maxAttempts := ← g.get "max_attempts" 0 (readCount max32) d.maxAttempts
    backoffMs := ← g.get "backoff_ms" 1 readLong d.backoffMs }

def readMemory (v : Toml) : Option Memory := do
  let g ← group? v
  let d : Memory := {}
  return {
    dbFile := ← g.get "db_file" 0 readText d.dbFile
    historyDays := ← g.get "history_days" 1 (readCount max32) d.historyDays
    staleTodoDays := ← g.get "stale_todo_days" 2 (readCount max32) d.staleTodoDays
    hotspotThreshold := ← g.get "hotspot_threshold" 3 readLong d.hotspotThreshold }

def readAudit (v : Toml) : Option Audit := do
  let g ← group? v
  let d : Audit := {}
  return { logFile := ← g.get "log_file" 0 readText d.logFile }

/-- The settings of a document. -/
def ofToml? (doc : Toml) : Option Config := do
  let g ← group? doc
  return {
    scanner := ← g.get "scanner" 0 readScanner {}
    fixer := ← g.get "fixer" 1 readFixer {}
    memory := ← g.get "memory" 2 readMemory {}
    audit := ← g.get "audit" 3 readAudit {} }

/-- Reads settings from the text of a file. -/
def parse? (text : List Char) : Option Config := (Toml.parse? text).bind ofToml?

/-- Loads the settings of a reserved directory; without a file they are the default ones. -/
def load (t : FileTree) (reserved : Path) : Except Error Config := do
  let p := reserved.join "config.toml"
  let c ←
    if t.contains p then
      match t.readText p with
      | .error e => throw (.config s!"reading config file {p.text}: {e.message}")
      | .ok text =>
        match parse? text with
        | some c => pure c
        | none => throw (.config s!"parsing config file {p.text}")
    else pure {}
  match c.invalid? with
  | some why => throw (.config why.message)
  | none => return c

end Steward.Config
