import Steward.Instant.Rfc3339
import Steward.Json
import Steward.Path

/-!
# Version history

What is asked of version control, as a record of answers. An answer that cannot be had is the reason
why. Nothing here changes a repository.
-/

namespace Steward

/-- A commit; its files are named from the workspace root. -/
structure Commit where
  id : String
  author : String
  timestamp : Instant
  summary : String
  files : List String
deriving DecidableEq, Repr

namespace Commit

def toJson (c : Commit) : Json :=
  .obj
    [("id", .str c.id),
     ("author", .str c.author),
     ("timestamp", .str (c.timestamp.rfc3339 .asNeeded)),
     ("summary", .str c.summary),
     ("files", .strs c.files)]

end Commit

/-- The last change of a line. -/
structure Blame where
  commit : String
  author : String
  timestamp : Instant
  /-- False for lines that stand in the working tree only. -/
  committed : Bool
deriving DecidableEq, Repr

namespace Blame

def toJson (b : Blame) : Json :=
  .obj
    [("commit", .str b.commit),
     ("author", .str b.author),
     ("timestamp", .str (b.timestamp.rfc3339 .asNeeded)),
     ("committed", .bool b.committed)]

end Blame

/-- A question to the history. -/
inductive Query where
  | repoRoot
  | isTracked (path : Path)
  | commitsSince (path : Path) (since : Instant)
  | blame (file : Path) (line : Nat)
deriving DecidableEq, Repr

structure History where
  /-- The root of the repository around the workspace. -/
  repoRoot : Except String Path
  /-- Whether a path is tracked at present. -/
  isTracked : Path → Except String Bool
  /-- The commits that touch a path since an instant, newest first. -/
  commitsSince : Path → Instant → Except String (List Commit)
  /-- The last change of a line of a file. -/
  blame : Path → Nat → Except String Blame
  /-- The commands that are run to answer a question. -/
  commands : Query → List (List String)

namespace History

/-- A history that has no answers, and why. -/
def unavailable (reason : String) : History where
  repoRoot := .error reason
  isTracked _ := .error reason
  commitsSince _ _ := .error reason
  blame _ _ := .error reason
  commands _ := []

/-- Whether a path lies in the repository. -/
def inRepository (h : History) (p : Path) : Except String Bool :=
  h.repoRoot.map fun root => p.isUnder root

/-- A text list in order, each text once. -/
def sortedDistinct (xs : List String) : List String :=
  (xs.mergeSort (fun a b => a ≤ b)).foldr
    (fun x rest => if rest.head? = some x then rest else x :: rest) []

/-- The files changed under a path since an instant, in order. -/
def changedSince (h : History) (p : Path) (since : Instant) : Except String (List String) :=
  (h.commitsSince p since).map fun cs => sortedDistinct (cs.flatMap (·.files))

end History

end Steward
