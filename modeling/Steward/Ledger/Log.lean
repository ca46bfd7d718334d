import Steward.Error
import Steward.FileTree.Disk
import Steward.Ledger.Chain

/-!
# Ledgers on disk

A ledger is a file that only grows. Its tail is all that appending needs: the last hash, the last
time, and whether an interrupted write left a line without its end. Times never go back.
-/

namespace Steward.Ledger

/-- What the next record depends on. -/
structure Tail where
  lastHash : String
  lastTime : Option Instant
  needsNewline : Bool
deriving DecidableEq, Repr

namespace Tail

/-- The tail of a ledger's text. -/
def ofText (text : List Char) : Tail :=
  let last := (records text).getLast?
  { lastHash := (last.map (·.hash)).getD genesisHash
    lastTime := last.bind (·.timestamp?)
    needsNewline := text.getLast?.any (· != '\n') }

/-- The time of the next record: the clock, or the last time if the clock is behind it. -/
def timeAt (t : Tail) (now : Instant) : Instant :=
  match t.lastTime with
  | none => now
  | some prev => now.latest prev

/-- The next record. -/
def next (digest : Digest) (t : Tail) (now : Instant) (e : Entry) : Record :=
  .sealed digest t.lastHash ((t.timeAt now).rfc3339 .micros) e

/-- The text that is added for a record. -/
def lineFor (t : Tail) (r : Record) : List Char :=
  (if t.needsNewline then ['\n'] else []) ++ r.line ++ ['\n']

/-- The tail after a record. -/
def after (t : Tail) (now : Instant) (r : Record) : Tail := ⟨r.hash, some (t.timeAt now), false⟩

end Tail

/-- A file that may not exist yet reads as empty. -/
def readText (tree : FileTree) (p : Path) : Except IoError (List Char) :=
  match tree.readText p with
  | .error .notFound => .ok []
  | r => r

/-- The records of the ledger at a path. -/
def readRecords (tree : FileTree) (p : Path) : Except Error (List Record) :=
  match readText tree p with
  | .ok text => .ok (records text)
  | .error e => .error (.ofIo e)

/-- Checks the chain of the ledger at a path. -/
def verify (digest : Digest) (tree : FileTree) (p : Path) : Except Error ChainReport :=
  match readText tree p with
  | .ok text => .ok (check digest text)
  | .error e => .error (.ofIo e)

/-- An open ledger. -/
structure Log where
  path : Path
  tail : Tail
deriving Repr

namespace Log

/-- Opens the ledger at a path; missing directories are made. -/
def openAt (p : Path) : Disk Log := do
  Disk.makeParents p
  let text ← Disk.ask fun t => readText t p
  return ⟨p, .ofText text⟩

/-- Adds an entry, and gives its record and the ledger after it. -/
def append (digest : Digest) (now : Instant) (log : Log) (e : Entry) : Disk (Record × Log) := do
  let r := log.tail.next digest now e
  Disk.append now log.path (Utf8.encode (log.tail.lineFor r))
  return (r, { log with tail := log.tail.after now r })

/-- The last `n` of some records. -/
def lastOf (n : Nat) (rs : List Record) : List Record := rs.drop (rs.length - n)

end Log

end Steward.Ledger
