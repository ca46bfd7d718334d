import Steward.Session.Queries

/-!
# Runs

A run scans a target and reports its violations; a healing run also fixes what can be fixed in the
files that the rules allow to be written. Every action that is judged leaves one record in the
ledger, and the run itself leaves the last.
-/

namespace Steward

inductive RunMode where
  | scan
  | heal
deriving DecidableEq, Repr

namespace RunMode

def name : RunMode → String
  | scan => "scan"
  | heal => "heal"

end RunMode

inductive RunStatus where
  /-- There are no violations. -/
  | clean
  /-- Violations remain. -/
  | findings
  /-- Every violation was fixed. -/
  | healed
  /-- A file was forbidden or could not be written. -/
  | partly
deriving DecidableEq, Repr

namespace RunStatus

def name : RunStatus → String
  | clean => "clean"
  | findings => "findings"
  | healed => "healed"
  | partly => "partial"

end RunStatus

/-- Why a file was not healed. -/
inductive HealFailure where
  | denied (file : String) (deniedBy messages : List String)
  | failed (file : String) (why : FixFailure)
deriving DecidableEq, Repr

namespace HealFailure

def isDenial : HealFailure → Bool
  | denied .. => true
  | failed .. => false

def toJson : HealFailure → Json
  | denied file deniedBy messages =>
    .obj [("kind", .str "denied"), ("file", .str file), ("denied_by", .strs deniedBy),
      ("messages", .strs messages)]
  | failed file why =>
    .obj [("kind", .str "failed_io"), ("file", .str file), ("detail", .str why.message)]

end HealFailure

structure RunReport where
  id : String
  mode : RunMode
  /-- The target as seen from the root. -/
  target : String
  decision : Decision
  violations : List Violation
  filesExamined : Nat
  skips : List Skip
  files : List FileReport
  failures : List HealFailure
  indexStale : Bool

namespace RunReport

def status (r : RunReport) : RunStatus :=
  if !r.failures.isEmpty then .partly
  else if r.violations.isEmpty then .clean
  else if r.mode = .heal && r.violations.all (·.fixed) then .healed
  else .findings

def violationCounts (r : RunReport) : Counts := .tally (r.violations.map (·.hazard.name))

def fixCounts (r : RunReport) : Counts :=
  r.files.foldl (fun m f => m.merge f.fixesByKind) .empty

def fixedCount (r : RunReport) : Nat := r.files.foldl (fun n f => n + f.fixedCount) 0

def hasDenials (r : RunReport) : Bool := r.failures.any (·.isDenial)

def skipCounts (r : RunReport) : Counts := .tally (r.skips.map (·.reason.code))

/-- The states that a finished run went through. -/
def states (r : RunReport) : List String :=
  ["Ready", "Authorizing", "Scanning"] ++ (if r.mode = .heal then ["Healing"] else []) ++
    ["Reporting", "Done"]

def toJson (r : RunReport) : Json :=
  .obj
    [("run_id", .str r.id),
     ("mode", .str r.mode.name),
     ("target", .str r.target),
     ("status", .str r.status.name),
     ("decision", r.decision.toJson),
     ("violations", .arr (r.violations.map (·.toJson))),
     ("files_examined", .nat r.filesExamined),
     ("diagnostics", .arr (r.skips.map (·.toJson))),
     ("files", .arr (r.files.map (·.toJson))),
     ("failures", .arr (r.failures.map (·.toJson))),
     ("states", .strs r.states),
     ("index_stale", .bool r.indexStale)]

end RunReport

/-- How far the healing of a run has come. -/
structure Healing where
  violations : List Violation
  files : List FileReport := []
  failures : List HealFailure := []

namespace Healing

/-- The violations of a file that are to be fixed. -/
def batch (h : Healing) (file : String) : List Violation :=
  h.violations.filter fun v => v.fixable && v.file = file

/-- The files to be healed, in order; `also` is one that counts in any case. -/
def targets (vs : List Violation) (also : Option String) : List String :=
  History.sortedDistinct (((vs.filter (·.fixable)).map (·.file)) ++ also.toList)

/-- Whether a report says that a violation was fixed. -/
def fixedIn (r : FileReport) (v : Violation) : Bool :=
  r.fixes.any fun f => f.hazard = v.hazard && f.line = v.line && f.outcome.isFixed

/-- Takes the report on a file in. -/
def take (h : Healing) (file : String) (r : FileReport) : Healing where
  violations := h.violations.map fun v =>
    if v.fixable && v.file = file then { v with fixed := fixedIn r v } else v
  files := h.files ++ [r]
  failures :=
    match r.failure? with
    | some why => h.failures ++ [.failed file why]
    | none => h.failures

/-- The violations that are still open, those of written files aside. -/
def openElsewhere (h : Healing) : List Violation :=
  let written := (h.files.filter (·.written)).map (·.file)
  h.violations.filter fun v => !v.fixed && !written.contains v.file

end Healing

namespace Work

/-- The place that a run is about; a path that leads nowhere is recorded. -/
def runTarget (run raw : String) : Work Path := do
  match ← resolve raw with
  | .ok p => return p
  | .error e =>
    let status :=
      match e with
      | .containment .. => "denied"
      | _ => "failed"
    record
      { action := "Scan", target := raw, allowed := false, run := some run, status := some status,
        error := some e.kind }
    fail e

/-- The decision to write a single file that is to be healed, which comes before it is read. -/
def preflight (run target : String) (p : Path) : Work (Option Decision) := do
  unless (← get).host.tree.isFile p do return none
  let decision ← judge ⟨.write, p⟩
  if decision.allowed then return some decision
  record
    { action := "Write", target, allowed := false, deniedBy := decision.deniedBy, run := some run,
      status := some "denied", error := some "ConstitutionalDenial" }
  record
    { action := "Scan", target, allowed := true, run := some run, status := some "aborted" }
  fail (.ofDecision decision)

/-- The survey that a run is based on; its failure is recorded. -/
def runSurvey (run target : String) (p : Path) : Work Survey := do
  match ← survey p with
  | .ok s => return s
  | .error e =>
    record
      { action := "Scan", target, allowed := true, run := some run, status := some "failed",
        error := some e.kind }
    fail e

/-- The decision to write a file, unless it was already made. -/
def writeDecision (made : Option Decision) (p : Path) : Work Decision :=
  match made with
  | some d => if d.action.target.same p then pure d else judge ⟨.write, p⟩
  | none => judge ⟨.write, p⟩

/-- Fixes some violations of a file. -/
def fixFile (p : Path) (file : String) (vs : List Violation) : Work FileReport := do
  let d ← get
  let (report, bench) := Fix.file d.session.config.fixer d.host.now p file vs
    { tree := d.host.tree, backedUp := d.session.backedUp }
  set
    { d with
      host := { d.host with tree := bench.tree, sleeps := d.host.sleeps ++ bench.sleeps }
      session := { d.session with backedUp := bench.backedUp } }
  return report

/-- What the ledger says of a file that was to be fixed. -/
def fixEntry (run file : String) (r : FileReport) : Ledger.Entry :=
  { action := "Write", target := file, allowed := true, fixes := r.fixesByKind, run := some run
    status := some
      (if r.failure?.isSome then "failed" else if r.written then "fixed" else "unchanged")
    error := if r.failure?.isSome then some "FixFailedIO" else none }

/-- Heals one file, if the rules allow it to be written. -/
def healFile (run : String) (made : Option Decision) (h : Healing) (file : String) :
    Work Healing := do
  let p := (← get).session.root.join file
  let decision ← writeDecision made p
  if decision.allowed then
    let report ← fixFile p file (h.batch file)
    record (fixEntry run file report)
    return h.take file report
  else
    record
      { action := "Write", target := file, allowed := false, deniedBy := decision.deniedBy,
        run := some run, status := some "denied", error := some "ConstitutionalDenial" }
    return { h with
      failures := h.failures ++ [.denied file decision.deniedBy decision.violations] }

/-- Heals the files of some violations one after the other. -/
def healFiles (run target : String) (made : Option Decision) (vs : List Violation) :
    Work Healing := do
  modify fun d => { d with session := { d.session with backedUp := [] } }
  (Healing.targets vs (made.map fun _ => target)).foldlM (healFile run made) { violations := vs }

/-- The violations after a run: written files are read again. -/
def openAfter (h : Healing) : Work (List Violation) := do
  let d ← get
  let again := (h.files.filter (·.written)).flatMap fun r =>
    match Survey.of d.session.config.scanner d.session.root d.host.tree
        (d.session.root.join r.file) with
    | .ok s => s.violations
    | .error _ => []
  return h.openElsewhere ++ again

/-- Scans or heals a target. -/
def run (mode : RunMode) (raw : String) : Work RunReport := do
  let id ← job Job.drawRun
  let p ← runTarget id raw
  let target := (← workspace).relative p
  let decision ← judge ⟨.scan, p⟩
  unless decision.allowed do deny .scan target (some id) decision
  let made ← if mode = .heal then preflight id target p else pure none
  let s ← runSurvey id target p
  let h ← if mode = .heal then healFiles id target made s.violations
    else pure { violations := s.violations }
  refreshIndex s.examined (← openAfter h)
  let report : RunReport :=
    { id, mode, target, decision
      violations := h.violations
      filesExamined := s.examined.length
      skips := s.skips
      files := h.files
      failures := h.failures
      indexStale := (← get).session.indexStale }
  record
    { action := "Scan", target, allowed := true, violations := report.violationCounts,
      fixes := report.fixCounts, run := some id, status := some report.status.name,
      filesExamined := some report.filesExamined, skipped := report.skipCounts }
  return report

def scan (raw : String) : Work RunReport := run .scan raw

def heal (raw : String) : Work RunReport := run .heal raw

end Work

end Steward
