import Steward.Host

/-!
# Sessions

A session is a workspace opened for work: its rules, settings, ledger and index. Opening makes the
reserved directory with its files, once the rules allow the ledger to be written, and records itself
in the ledger.
-/

namespace Steward

/-- What opening found and what it made, by name. -/
structure InitReport where
  root : Path
  created : List String := []
  existed : List String := []
deriving Repr

namespace InitReport

def toJson (r : InitReport) : Json :=
  .obj [("root", .str r.root.text), ("created", .strs r.created), ("existed", .strs r.existed)]

end InitReport

structure Session where
  /-- The canonical root of the workspace. -/
  root : Path
  adapter : Adapter
  config : Config
  constitution : Constitution
  log : Ledger.Log
  /-- The index, unless it could not be opened. -/
  index : Option IndexHandle
  indexPath : Path
  /-- Whether the index must be rebuilt before it is asked. -/
  indexStale : Bool
  /-- The files whose old bytes are safe in this run. -/
  backedUp : List Path := []
  init : InitReport

namespace Session

/-- Something that must exist: its label, how to tell, how to make it. -/
def ensure (label : String) (p : Path) (doing : String) (make : Disk Unit) (r : InitReport) :
    Job InitReport := do
  if (← get).tree.contains p then return { r with existed := r.existed ++ [label] }
  else
    Job.disk (fun e => .auditWrite (doing ++ ": " ++ e.message)) make
    return { r with created := r.created ++ [label] }

/-- A file that must exist; `name` is seen from the reserved directory. -/
def ensureFile (reserved : Path) (name : String) (content : List Char) (r : InitReport) :
    Job InitReport := do
  let p := reserved.join name
  ensure name p ("write " ++ Text.quote p.text)
    (Disk.writeAtomic (← get).now p (Utf8.encode content)) r

/-- Makes sure that the reserved directory, the settings and the ledger exist. -/
def prepare (reserved : Path) (config : Config) (log : Path) : Job InitReport := do
  let r ← ensure "." reserved ("create_dir_all(" ++ Text.quote reserved.text ++ ")")
    (Disk.makeDirs reserved) { root := reserved }
  let text ← Job.ofExcept (config.toToml.mapError .auditWrite)
  let r ← ensureFile reserved "config.toml" text.toList r
  ensureFile reserved ((log.restAfter? reserved).getD log).text [] r

/-- Opens the index, if that is possible; the answer also says whether it is stale. -/
def openIndex (p : Path) : Job (Option IndexHandle × Bool) := do
  match ← Job.attempt (IndexHandle.openAt p) with
  | .ok x => return (some x, (← x.tables).isStale)
  | .error _ => return (none, true)

/-- The workspace at a canonical root, with its history as it is now. -/
def bind (root : Path) (adapter : Adapter) : Job Workspace := do
  return ⟨root, (← get).history adapter⟩

/-- Opens the workspace at a canonical root with given settings and rules. -/
def openWith (root : Path) (adapter : Adapter) (config : Config) (constitution : Constitution) :
    Job Session := do
  let w ← bind root adapter
  let reserved := w.reservedDir
  let logPath := reserved.join config.audit.logFile
  let action : Action := ⟨.auditAppend, logPath⟩
  let decision := constitution.judge action w
  modify fun h => (h.asked adapter (constitution.asks action)).decided decision
  unless decision.allowed do Job.fail (.ofDecision decision)
  let init ← prepare reserved config logPath
  let log ← Job.disk .ofAudit (Ledger.Log.openAt logPath)
  let host ← get
  let (record, log) ← Job.disk .ofAudit (log.append host.digest host.now
    { action := action.kind.name, target := w.relative logPath, allowed := true,
      status := some "session-open" })
  modify (·.recorded record)
  let indexPath := reserved.join config.memory.dbFile
  let (index, indexStale) ← openIndex indexPath
  return { root, adapter, config, constitution, log, index, indexPath, indexStale, init }

/-- The canonical path of a directory. -/
def canonicalRoot (p : Path) : Job Path := do
  let l ← Job.ofExcept (((← get).tree.canonical p).mapError .ofIo)
  return l.path

/-- Opens the workspace at a path with its own settings and the standard rules. -/
def openAt (p : Path) (adapter : Adapter) : Job Session := do
  let root ← canonicalRoot p
  let config ← Job.ofExcept (Config.load (← get).tree (root.join Workspace.reservedName))
  openWith root adapter config .standard

end Session

/-- A session together with the host it works on. -/
structure Desk where
  host : Host
  session : Session

/-- Work in a session. -/
abbrev Work (α : Type) := EStateM Fault Desk α

namespace Work

def job {α : Type} (t : Job α) : Work α := fun d =>
  match t d.host with
  | .ok a host => .ok a { d with host }
  | .error e host => .error e { d with host }

def fail {α : Type} (e : Error) : Work α := throw (.error e)

/-- The answer of some work, or how it ended; either way the work goes on. -/
def attempt {α : Type} (w : Work α) : Work (Except Fault α) := fun d =>
  match w d with
  | .ok a d => .ok (.ok a) d
  | .error e d => .ok (.error e) d

/-- The workspace with its history as it is now. -/
def workspace : Work Workspace := do
  let d ← get
  return ⟨d.session.root, d.host.history d.session.adapter⟩

/-- Asks the rules about an action. -/
def judge (a : Action) : Work Decision := do
  let d ← get
  let w ← workspace
  let decision := d.session.constitution.judge a w
  set { d with
    host := (d.host.asked d.session.adapter (d.session.constitution.asks a)).decided decision }
  return decision

/-- Adds an entry to the ledger. -/
def record (e : Ledger.Entry) : Work Unit := do
  let d ← get
  let (r, log) ← job (Job.disk .ofAudit (d.session.log.append d.host.digest d.host.now e))
  modify fun d => { d with host := d.host.recorded r, session := { d.session with log } }

/-- The place in the workspace that a given path leads to. -/
def resolve (raw : String) : Work (Except Error Path) := do
  return (← workspace).resolve (← get).host.tree raw

/-- The survey of a target. -/
def survey (target : Path) : Work (Except Error Survey) := do
  let d ← get
  return Survey.of d.session.config.scanner d.session.root d.host.tree target

/-- Records that something is forbidden, and fails. -/
def deny {α : Type} (kind : ActionKind) (target : String) (run : Option String) (d : Decision) :
    Work α := do
  record
    { action := kind.name, target, allowed := false, deniedBy := d.deniedBy, run,
      status := some "denied", error := some "ConstitutionalDenial" }
  fail (.ofDecision d)

/-- Judges a single action and records the decision. -/
def authorize (kind : ActionKind) (raw : String) : Work Decision := do
  match ← resolve raw with
  | .error e =>
    record
      { action := kind.name, target := raw, allowed := false, status := some "denied",
        error := some e.kind }
    fail e
  | .ok target =>
    let decision ← judge ⟨kind, target⟩
    record
      { action := kind.name, target := (← workspace).relative target, allowed := decision.allowed,
        deniedBy := decision.deniedBy,
        status := some (if decision.allowed then "allowed" else "denied") }
    return decision

/-- The last `n` records of the ledger. -/
def tail (n : Nat) : Work (List Ledger.Record) := do
  let d ← get
  let rs ← job (Job.ofExcept (Ledger.readRecords d.host.tree d.session.log.path))
  return Ledger.Log.lastOf n rs

/-- Checks the ledger. -/
def verify : Work Ledger.ChainReport := do
  let d ← get
  job (Job.ofExcept (Ledger.verify d.host.digest d.host.tree d.session.log.path))

end Work

end Steward
