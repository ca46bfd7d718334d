import Steward.Counts
import Steward.Finding

/-!
# The index

Tables of commits, of the files they touch and of open findings, and the questions that are asked of
them. Times are kept as text to the second, which sorts as the times do. The index is stale until it
is first built, and again when it is marked so.
-/

namespace Steward

/-- A commit in the index. -/
structure CommitRow where
  id : String
  author : String
  committedAt : String
  summary : String
deriving DecidableEq, Repr

/-- The tables, rows in the order in which they came. -/
structure Index where
  commits : List CommitRow := []
  commitFiles : List (String × String) := []
  findings : List Finding := []
  markedStale : Bool := false
  builtAt : Option String := none
deriving DecidableEq, Repr, Inhabited

namespace Index

def isStale (x : Index) : Bool := x.markedStale || x.builtAt.isNone

def markStale (x : Index) : Index := { x with markedStale := true }

/-! ## Changes -/

/-- Puts a row in place of the one with its identity, or at the end. -/
def upsert (r : CommitRow) : List CommitRow → List CommitRow
  | [] => [r]
  | q :: rest => if q.id = r.id then r :: rest else q :: upsert r rest

/-- Adds an item at the end unless it is there. -/
def addNew {α : Type} [BEq α] (xs : List α) (a : α) : List α := if xs.contains a then xs else xs ++ [a]

def addCommit (x : Index) (c : Commit) : Index :=
  { x with
    commits := upsert ⟨c.id, c.author, c.timestamp.stamp, c.summary⟩ x.commits
    commitFiles := c.files.foldl (fun rows f => addNew rows (c.id, f)) x.commitFiles }

def addCommits (x : Index) (cs : List Commit) : Index := cs.foldl addCommit x

/-- Adds a finding unless one with its identity is there. -/
def addFinding (x : Index) (f : Finding) : Index :=
  if x.findings.any (·.id = f.id) then x else { x with findings := x.findings ++ [f] }

def addFindings (x : Index) (fs : List Finding) : Index := fs.foldl addFinding x

/-- Drops the commits before a time, with their files. -/
def dropBefore (x : Index) (cutoff : String) : Index :=
  let old := (x.commits.filter (·.committedAt < cutoff)).map (·.id)
  { x with
    commitFiles := x.commitFiles.filter fun (id, _) => !old.contains id
    commits := x.commits.filter fun c => !decide (c.committedAt < cutoff) }

/-- Adds commits and drops those before the horizon. -/
def recordCommits (x : Index) (cs : List Commit) (horizon : Instant) : Index :=
  (x.addCommits cs).dropBefore horizon.stamp

/-- Puts new findings in place of those of some files. -/
def replaceFindings (x : Index) (files : List String) (fs : List Finding) : Index :=
  { x with findings := x.findings.filter fun f => !files.contains f.file }.addFindings fs

/-- An index of the given commits and findings only. -/
def rebuild (now : Instant) (cs : List Commit) (fs : List Finding) : Index :=
  (({ builtAt := some now.stamp } : Index).addCommits cs).addFindings fs

/-! ## Questions -/

/-- A number as the index orders it: from half of the range on it counts as negative. -/
def signed (n : Nat) : Int := if n < 9223372036854775808 then n else n - 18446744073709551616

/-- Texts in order, each once. -/
def distinct (xs : List String) : List String := History.sortedDistinct xs

structure Contributor where
  author : String
  commits : Nat
deriving DecidableEq, Repr

/-- What happened in the last days. -/
structure Activity where
  windowDays : Nat
  since : String
  commits : Nat
  filesChanged : List String
  openTodos : Nat
  topContributors : List Contributor
  violationsByKind : Counts

/-- The commits since a time. -/
def commitsFrom (x : Index) (since : String) : List CommitRow :=
  x.commits.filter fun c => since ≤ c.committedAt

/-- The open to-do marks. -/
def todos (x : Index) : List Finding := x.findings.filter (·.kind = Hazard.todoComment.name)

/-- The authors with the most commits, five at most. -/
def contributors (cs : List CommitRow) : List Contributor :=
  let counts := (Counts.tally (cs.map (·.author))).entries
  ((counts.mergeSort fun a b => b.2 < a.2 || (a.2 = b.2 && a.1 ≤ b.1)).take 5).map
    fun (author, n) => ⟨author, n⟩

/-- The activity since a number of days before now, if there is such a day. -/
def activity? (x : Index) (days : Nat) (now : Instant) : Option Activity :=
  (now.minusDays? days).map fun t =>
    let since := t.stamp
    let cs := x.commitsFrom since
    let ids := cs.map (·.id)
    { windowDays := days
      since
      commits := cs.length
      filesChanged := distinct ((x.commitFiles.filter fun (id, _) => ids.contains id).map (·.2))
      openTodos := x.todos.length
      topContributors := contributors cs
      violationsByKind :=
        .tally ((x.findings.filter fun f => since ≤ f.firstSeen).map (·.kind)) }

/-- A to-do mark and its age. -/
structure Todo where
  id : String
  file : String
  line : Nat
  text : String
  firstSeen : String
  ageDays : Int
deriving DecidableEq, Repr

/-- Whole days since a time that is given as text. -/
def ageDays (now : Instant) (firstSeen : String) : Int :=
  ((Instant.parse? firstSeen).map now.daysSince).getD 0

/-- The order of to-do marks: by time, file and line. -/
def todoLe (a b : Finding) : Bool :=
  if a.firstSeen ≠ b.firstSeen then a.firstSeen < b.firstSeen
  else if a.file ≠ b.file then a.file < b.file
  else signed a.line ≤ signed b.line

/-- The to-do marks first seen a number of days before now or earlier, if there is such a day. -/
def staleTodos? (x : Index) (days : Nat) (now : Instant) : Option (List Todo) :=
  (now.minusDays? days).map fun t =>
    let cutoff := t.stamp
    ((x.todos.filter fun f => f.firstSeen ≤ cutoff).mergeSort todoLe).map fun f =>
      ⟨f.id, f.file, f.line, f.text, f.firstSeen, ageDays now f.firstSeen⟩

/-- Something that could be done, given approval. -/
structure Opportunity where
  id : String
  kind : String
  title : String
  files : List String
deriving DecidableEq, Repr

/-- An opportunity, if there are files for it. -/
def opportunity? (id kind title : String) (files : List String) : Option Opportunity :=
  if files.isEmpty then none else some ⟨id, kind, title, files⟩

/-- The files of the findings that satisfy a condition. -/
def filesWhere (x : Index) (p : Finding → Bool) : List String :=
  distinct ((x.findings.filter p).map (·.file))

/-- The files with at least a number of findings. -/
def hotFiles (x : Index) (threshold : Nat) : List String :=
  ((Counts.tally (x.findings.map (·.file))).entries.filter fun (_, n) =>
    signed threshold ≤ (n : Int)).map (·.1)

/-- What could be done about the open findings, if the day of the oldest to-do marks exists. -/
def opportunities? (x : Index) (todoDays threshold : Nat) (now : Instant) :
    Option (List Opportunity) :=
  (x.staleTodos? todoDays now).map fun todos =>
    let healable := x.filesWhere (·.fixable)
    [opportunity? "stale-todos" "stale_todos" s!"Close TODO markers older than {todoDays} days"
        (distinct (todos.map (·.file))),
      opportunity? "rotate-credentials" "credential_rotation"
        "Rotate committed cloud credentials and remove them from source"
        (x.filesWhere (·.kind = Hazard.awsAccessKey.name)),
      opportunity? "auto-heal" "auto_heal"
        s!"Run heal on {healable.length} file(s) with fixable findings" healable,
      opportunity? "hotspots" "hotspot" s!"Review files with {threshold}+ open findings"
        (x.hotFiles threshold)].filterMap id

/-- A commit with its files. -/
structure CommitView where
  id : String
  author : String
  committedAt : String
  files : List String
deriving DecidableEq, Repr

/-- The tables in an order that does not depend on how they came about. -/
structure Snapshot where
  commits : List CommitView
  findings : List Finding
deriving DecidableEq, Repr

/-- The order of findings: by file, line and identity. -/
def findingLe (a b : Finding) : Bool :=
  if a.file ≠ b.file then a.file < b.file
  else if signed a.line ≠ signed b.line then signed a.line < signed b.line
  else a.id ≤ b.id

def snapshot (x : Index) : Snapshot where
  commits := (x.commits.mergeSort fun a b => a.id ≤ b.id).map fun c =>
    ⟨c.id, c.author, c.committedAt,
      ((x.commitFiles.filter (·.1 = c.id)).map (·.2)).mergeSort fun a b => a ≤ b⟩
  findings := x.findings.mergeSort findingLe

/-! ## Reports -/

def Activity.toJson (a : Activity) : Json :=
  .obj
    [("window_days", .nat a.windowDays),
     ("since", .str a.since),
     ("commits", .nat a.commits),
     ("files_changed", .strs a.filesChanged),
     ("open_todos", .nat a.openTodos),
     ("top_contributors", .arr (a.topContributors.map fun c =>
       .obj [("author", .str c.author), ("commits", .nat c.commits)])),
     ("violations_by_kind", a.violationsByKind.toJson)]

def Todo.toJson (t : Todo) : Json :=
  .obj
    [("todo_id", .str t.id),
     ("file", .str t.file),
     ("line", .nat t.line),
     ("text", .str t.text),
     ("first_seen", .str t.firstSeen),
     ("age_days", .int t.ageDays)]

def Opportunity.toJson (o : Opportunity) : Json :=
  .obj
    [("id", .str o.id),
     ("kind", .str o.kind),
     ("title", .str o.title),
     ("files", .strs o.files),
     ("requires_approval", .bool true)]

def Snapshot.toJson (s : Snapshot) : Json :=
  .obj
    [("commits", .arr (s.commits.map fun c =>
       .arr [.str c.id, .str c.author, .str c.committedAt, .strs c.files])),
     ("findings", .arr (s.findings.map (·.toJson)))]

end Index

end Steward
