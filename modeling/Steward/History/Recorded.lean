import Steward.History

/-!
# A history made of data

Answers from tables instead of a repository.
-/

namespace Steward.History

/-- What is known about the last change of a file or of one of its lines. -/
structure BlameNote where
  file : String
  line : Option Nat
  timestamp : Option Instant
  committed : Bool
deriving DecidableEq, Repr

/-- The tables of a history. -/
structure Recorded where
  available : Bool := true
  /-- Questions that get no answer, by name. -/
  failing : List String := []
  /-- Where the workspace is. -/
  base : Path
  repoRoot : Path
  tracked : List String := []
  commits : List Commit := []
  blame : List BlameNote := []
  blameTime : Instant
deriving Repr

namespace Recorded

/-- Fails if the history is unavailable or the question is one that gets no answer. -/
def guarded {α : Type} (r : Recorded) (name : String) (answer : Except String α) : Except String α :=
  if !r.available || r.failing.contains name then .error "not a git repository" else answer

def tracks (r : Recorded) (p : Path) : Bool := r.tracked.any fun t => (r.base.join t).same p

/-- Whether a commit touches a path, by the text of its files' names. -/
def touches (r : Recorded) (p : Path) (c : Commit) : Bool :=
  let start := ((p.restAfter? r.base).map (·.text)).getD ""
  start.isEmpty || c.files.any fun f => f.startsWith start

/-- Commits from the newest to the oldest; commits of one time keep their order. -/
def newestFirst (cs : List Commit) : List Commit :=
  cs.mergeSort fun a b => b.timestamp.le a.timestamp

def commitsSince (r : Recorded) (p : Path) (since : Instant) : List Commit :=
  newestFirst (r.commits.filter fun c => since.le c.timestamp && r.touches p c)

def blameOf (r : Recorded) (file : Path) (line : Nat) : Except String Blame :=
  if r.tracks file then
    let note := r.blame.find? fun b =>
      (r.base.join b.file).same file && (b.line = none || b.line = some line)
    .ok
      { commit := "c0ffee"
        author := "Ada"
        timestamp := (note.bind (·.timestamp)).getD r.blameTime
        committed := (note.map (·.committed)).getD true }
  else .error "no such path in HEAD"

/-- The tables as a history. No command is run. -/
def history (r : Recorded) : History where
  repoRoot := r.guarded "repo_root" (.ok r.repoRoot)
  isTracked p := r.guarded "is_tracked" (.ok (r.tracks p))
  commitsSince p since := r.guarded "commits_since" (.ok (r.commitsSince p since))
  blame file line := r.guarded "blame_line" (r.blameOf file line)
  commands _ := []

end Recorded

end Steward.History
