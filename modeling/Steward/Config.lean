import Steward.Json
import Steward.Path

/-!
# Configuration

The settings of a workspace, with what holds where nothing is set.
-/

namespace Steward

namespace Config

/-- What is scanned. -/
structure Scanner where
  maxFileBytes : Nat := 1048576
  extensions : List String :=
    ["py", "pyw", "js", "jsx", "mjs", "cjs", "ts", "tsx", "java", "go", "rb", "php", "rs", "c", "h",
      "cpp", "hpp", "cs", "sh", "bash", "kt", "swift", "scala", "vue", "svelte"]
  ignoredDirs : List String :=
    ["__pycache__", "node_modules", "target", "dist", "build", "venv", "env", "coverage", "htmlcov"]
  /-- How many characters of a line a violation shows. -/
  snippetLen : Nat := 120
deriving DecidableEq, Repr, Inhabited

/-- How files are written. -/
structure Fixer where
  maxAttempts : Nat := 3
  backoffMs : Nat := 25
deriving DecidableEq, Repr, Inhabited

/-- What the index keeps and reports. -/
structure Memory where
  /-- Seen from the reserved directory. -/
  dbFile : String := "context.db"
  historyDays : Nat := 90
  staleTodoDays : Nat := 30
  hotspotThreshold : Nat := 5
deriving DecidableEq, Repr, Inhabited

/-- Where the ledger is. -/
structure Audit where
  /-- Seen from the reserved directory. -/
  logFile : String := "audit.log"
deriving DecidableEq, Repr, Inhabited

end Config

structure Config where
  scanner : Config.Scanner := {}
  fixer : Config.Fixer := {}
  memory : Config.Memory := {}
  audit : Config.Audit := {}
deriving DecidableEq, Repr, Inhabited

namespace Config

/-- A setting that cannot be worked with. -/
inductive Invalid where
  | noAttempts
  | noBytes
  | noIndexFile
deriving DecidableEq, Repr

namespace Invalid

def message : Invalid → String
  | noAttempts => "fixer.max_attempts must be >= 1"
  | noBytes => "scanner.max_file_bytes must be > 0"
  | noIndexFile => "memory.db_file must not be empty"

end Invalid

/-- The first setting that cannot be worked with. -/
def invalid? (c : Config) : Option Invalid :=
  if c.fixer.maxAttempts = 0 then some .noAttempts
  else if c.scanner.maxFileBytes = 0 then some .noBytes
  else if c.memory.dbFile = "" then some .noIndexFile
  else none

def toJson (c : Config) : Json :=
  .obj
    [("scanner", .obj
      [("max_file_bytes", .nat c.scanner.maxFileBytes),
       ("extensions", .strs c.scanner.extensions),
       ("ignored_dirs", .strs c.scanner.ignoredDirs),
       ("snippet_len", .nat c.scanner.snippetLen)]),
     ("fixer", .obj
      [("max_attempts", .nat c.fixer.maxAttempts),
       ("backoff_ms", .nat c.fixer.backoffMs)]),
     ("memory", .obj
      [("db_file", .str c.memory.dbFile),
       ("history_days", .nat c.memory.historyDays),
       ("stale_todo_days", .nat c.memory.staleTodoDays),
       ("hotspot_threshold", .nat c.memory.hotspotThreshold)]),
     ("audit", .obj [("log_file", .str c.audit.logFile)])]

end Config

end Steward
