import Steward.Session

/-!
# The index of a session

The index is brought up to date after every run, as long as it is not stale; once it is, it has to be
rebuilt from the history and a survey of the whole workspace before it answers anything.
-/

namespace Steward

/-- What a rebuild took in. -/
structure RebuildSummary where
  commits : Nat
  findings : Nat
  filesExamined : Nat
deriving DecidableEq, Repr

namespace RebuildSummary

def toJson (s : RebuildSummary) : Json :=
  .obj [("commits", .nat s.commits), ("findings", .nat s.findings),
    ("files_examined", .nat s.filesExamined)]

end RebuildSummary

namespace Work

/-- Asks the history; no answer is an error. -/
def askHistory {α : Type} (q : Query) (f : History → Except String α) : Work α := do
  let d ← get
  set { d with host := d.host.asked d.session.adapter [q] }
  match f (d.host.history d.session.adapter) with
  | .ok a => return a
  | .error reason => fail (.noHistory reason)

/-- The commits of the workspace since an instant. -/
def commitsSince (since : Instant) : Work (List Commit) := do
  let root := (← get).session.root
  askHistory (.commitsSince root since) fun h => h.commitsSince root since

/-- The findings of some violations, dated now. -/
def findings (vs : List Violation) : Work (List Finding) := do
  let d ← get
  let s := d.session
  set { d with host := d.host.asked s.adapter (Finding.asks s.root vs) }
  return Finding.ofViolations d.host.digest s.root (d.host.history s.adapter) d.host.tree d.host.now vs

/-- The instant from which commits are kept. -/
def horizon : Work Instant := do job (Job.daysAgo (← get).session.config.memory.historyDays)

/-- Takes the findings of some files and the latest commits in. -/
def updateIndex (files : List String) (vs : List Violation) : Work Unit := do
  let since ← horizon
  let commits ← commitsSince since
  let rows ← findings vs
  match (← get).session.index with
  | none => fail .indexStale
  | some x => job (x.modify fun t => (t.recordCommits commits since).replaceFindings files rows)

/-- Notes in the session and in the index itself that it has to be rebuilt. -/
def markStale : Work Unit := do
  modify fun d => { d with session := { d.session with indexStale := true } }
  match (← get).session.index with
  | none => pure ()
  | some x => job (x.modify Index.markStale)

/-- Brings the index up to date after a run, unless it is stale; if that fails, it is. -/
def refreshIndex (files : List String) (vs : List Violation) : Work Unit := do
  unless (← get).session.indexStale do
    match ← attempt (updateIndex files vs) with
    | .ok () => pure ()
    | .error (.error _) => markStale
    | .error .calendar => throw .calendar

/-- The open index; it is opened now if it was not. -/
def openedIndex : Work IndexHandle := do
  match (← get).session.index with
  | some x => return x
  | none =>
    let x ← job (IndexHandle.openAt (← get).session.indexPath)
    modify fun d => { d with session := { d.session with index := some x } }
    return x

/-- Fills the index anew; the answer has the survey's counts of skipped files too. -/
def refillIndex : Work (RebuildSummary × Counts) := do
  let since ← horizon
  let s ← job (Job.ofExcept (← survey (← get).session.root))
  let commits ← commitsSince since
  let rows ← findings s.violations
  let x ← openedIndex
  let now := (← get).host.now
  job (x.modify fun _ => Index.rebuild now commits rows)
  modify fun d => { d with session := { d.session with indexStale := false } }
  return (⟨commits.length, rows.length, s.examined.length⟩, s.skipCounts)

/-- Rebuilds the index, if the rules allow the workspace to be scanned, and records it. -/
def rebuildIndex : Work RebuildSummary := do
  let run ← job Job.drawRun
  let decision ← judge ⟨.scan, (← get).session.root⟩
  unless decision.allowed do deny .scan "." (some run) decision
  let entry : Ledger.Entry := { action := "Scan", target := ".", allowed := true, run := some run }
  match ← attempt refillIndex with
  | .ok (summary, skipped) =>
    record { entry with
      status := some "index-rebuilt", filesExamined := some summary.filesExamined, skipped }
    return summary
  | .error (.error e) =>
    markStale
    record { entry with status := some "failed", error := some e.kind }
    fail e
  | .error .calendar => throw .calendar

/-- The tables of the index, rebuilt first if they are stale. -/
def freshIndex : Work Index := do
  let s := (← get).session
  if s.indexStale || s.index.isNone then
    let _ ← rebuildIndex
  match (← get).session.index with
  | some x => job x.tables
  | none => fail .indexStale

def activity (days : Nat) : Work Index.Activity := do
  let x ← freshIndex
  job (Job.dated (x.activity? days (← get).host.now))

/-- The to-do marks older than some days, by default as configured. -/
def staleTodos (days : Option Nat) : Work (List Index.Todo) := do
  let x ← freshIndex
  let d ← get
  job (Job.dated (x.staleTodos? (days.getD d.session.config.memory.staleTodoDays) d.host.now))

def opportunities : Work (List Index.Opportunity) := do
  let x ← freshIndex
  let d ← get
  let m := d.session.config.memory
  job (Job.dated (x.opportunities? m.staleTodoDays m.hotspotThreshold d.host.now))

/-- The index as it is. -/
def snapshot : Work Index.Snapshot := do
  match (← get).session.index with
  | none => fail .indexStale
  | some x => return (← job x.tables).snapshot

end Work

end Steward
