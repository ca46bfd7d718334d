import Steward.Config.File
import Steward.Constitution.Standard
import Steward.Fix.File
import Steward.History.Git
import Steward.Index
import Steward.Index.Place
import Steward.Ledger.Log
import Steward.Survey

/-!
# The host

Everything outside a workspace's own data that the program works with: files, the clock, version
control, and the index stores behind database files. A `Job` is work on a host that may fail; what
it did before failing stays done.
-/

namespace Steward

/-- How work ends without an answer. -/
inductive Fault where
  | error (e : Error)
  /-- A date before the days on which time is kept. -/
  | calendar
deriving DecidableEq, Repr

/-- The ways to reach a version history: the `git` program, or a history that is given. -/
inductive Adapter where
  | git
  | given
deriving DecidableEq, Repr

structure Host where
  tree : FileTree
  now : Instant
  digest : Digest := Digest.blake3
  /-- Running `git` in the workspace. -/
  git : History.Git.Runner
  /-- The history that is given. -/
  given : History := .unavailable "not a git repository"
  /-- The tables behind the databases; a database names its own by their position. -/
  stores : List Index := []
  /-- The commands that version control ran, in order. -/
  commands : List (List String) := []
  /-- The decisions of the rules, in order. -/
  decisions : List Decision := []
  /-- The records that came into ledgers, in order. -/
  records : List Ledger.Record := []
  /-- The waits while writing files, in milliseconds. -/
  sleeps : List Nat := []
  /-- How many run identifiers were drawn. -/
  runsDrawn : Nat := 0

namespace Host

/-- The version history as it is now. -/
def history (h : Host) : Adapter → History
  | .git => History.Git.history h.git h.tree
  | .given => h.given

/-- The host after questions were asked of a history. -/
def asked (h : Host) (a : Adapter) (qs : List Query) : Host :=
  { h with commands := h.commands ++ qs.flatMap (h.history a).commands }

/-- The host after the rules decided about an action. -/
def decided (h : Host) (d : Decision) : Host := { h with decisions := h.decisions ++ [d] }

/-- The host after a record came into a ledger. -/
def recorded (h : Host) (r : Ledger.Record) : Host := { h with records := h.records ++ [r] }

/-- A number in hexadecimal with leading zeros up to a width. -/
def paddedHex (width n : Nat) : String :=
  let ds := Nat.toDigits 16 n
  String.ofList (List.replicate (width - ds.length) '0' ++ ds)

/-- The identifier of the `n`th run. -/
def runId (n : Nat) : String := "00000000-0000-4000-8000-" ++ paddedHex 12 n

end Host

abbrev Job (α : Type) := EStateM Fault Host α

namespace Job

def fail {α : Type} (e : Error) : Job α := throw (.error e)

def ofExcept {α : Type} : Except Error α → Job α
  | .ok a => pure a
  | .error e => fail e

/-- The answer of a job, or how it ended; either way the work goes on. -/
def attempt {α : Type} (t : Job α) : Job (Except Fault α) := fun h =>
  match t h with
  | .ok a h => .ok (.ok a) h
  | .error e h => .ok (.error e) h

/-- Work on the files. -/
def disk {α : Type} (wrap : IoError → Error) (d : Disk α) : Job α := fun h =>
  match d h.tree with
  | .ok a tree => .ok a { h with tree }
  | .error e tree => .error (.error (wrap e)) { h with tree }

/-- The identifier of a new run. -/
def drawRun : Job String := do
  modify fun h => { h with runsDrawn := h.runsDrawn + 1 }
  return Host.runId (← get).runsDrawn

/-- The instant some days ago. -/
def daysAgo (days : Nat) : Job Instant := do
  match (← get).now.minusDays? days with
  | some t => return t
  | none => throw .calendar

/-- An answer that needs a date; without one the work ends. -/
def dated {α : Type} : Option α → Job α
  | some a => pure a
  | none => throw .calendar

end Job

/-- An open index: the path it was opened at and the store behind it. -/
structure IndexHandle where
  path : Path
  store : Nat
deriving DecidableEq, Repr

namespace IndexHandle

def cannotOpen (p : Path) : Error :=
  .index ("unable to open database file: " ++ p.text) (some .cannotOpen)

def notDatabase : Error := .index "file is not a database" (some .notDatabase)

/-- The error for a path with a zero byte in it, if there is one. -/
def zeroByte? (p : Path) : Option Error :=
  let before := p.text.toList.takeWhile (· != '\x00')
  if before.length = p.text.toList.length then none
  else
    let fault := DatabaseFault.zeroByte (Utf8.encode before).length
    some (.index fault.message (some fault))

/-- Makes a database for a path at a place, with empty tables behind it. -/
def create (p : Path) (l : Location) : Job IndexHandle := do
  let store := (← get).stores.length
  let now := (← get).now
  Job.disk (fun _ => cannotOpen p) (Disk.update now l.path fun _ => .database store now)
  modify fun h => { h with stores := h.stores ++ [{}] }
  return ⟨p, store⟩

/-- Opens the index at a path. Missing directories are made. A file that is missing or has no more
than one byte becomes a new database; any other that is none is left alone. -/
def openAt (p : Path) : Job IndexHandle := do
  Job.disk .ofIo (Disk.makeParents p)
  if let some e := zeroByte? p then Job.fail e
  match Index.place? (← get).tree p with
  | none => Job.fail (cannotOpen p)
  | some l =>
    match (← get).tree.get? l with
    | some (.database store _) => return ⟨p, store⟩
    | some (.file (_ :: _ :: _) _) => Job.fail notDatabase
    | _ => create p l

/-- The tables of an open index. -/
def tables (x : IndexHandle) : Job Index := do return (← get).stores.getD x.store {}

/-- Changes the tables of an open index. -/
def modify (x : IndexHandle) (f : Index → Index) : Job Unit :=
  MonadState.modifyGet fun h => ((), { h with stores := h.stores.modify x.store f })

end IndexHandle

end Steward
