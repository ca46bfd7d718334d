import Steward.Constitution
import Steward.Text.Blank

/-!
# The standard rules

Only what is under version control is touched, credential material is never written, scans stay
inside the workspace, and the workspace root itself stays. `Rule.frozenScripts` and
`Rule.nothingDeleted` may be added.
-/

namespace Steward.Rule

/-- The verdict of a question to the history: no answer denies. -/
def trackedVerdict (a : Action) (w : Workspace) (wanted : String) :
    Except String Bool → Verdict
  | .ok true => .allow
  | .ok false => .deny s!"{w.relative a.target} is not {wanted}"
  | .error reason =>
    let e := Error.noHistory reason
    .deny s!"{e.kind}: {e.message}"

/-- Targets must be under version control. -/
def trackedSource : Rule where
  id := "R-tracked-source"
  domain := .codeImplementation
  description :=
    "targets must be under version control: tracked files for read/write/delete, " ++
      "a tracked workspace for scan/audit"
  predicate a w :=
    match a.kind with
    | .scan | .auditAppend =>
      trackedVerdict a w "inside a tracked workspace" (w.history.inRepository a.target)
    | .read | .write | .delete =>
      trackedVerdict a w "currently tracked" (w.history.isTracked a.target)
  asks a :=
    match a.kind with
    | .scan | .auditAppend => [.repoRoot]
    | .read | .write | .delete => [.isTracked a.target]

/-- Parts of names that mark credential material. -/
def credentialMarks : List String :=
  ["password", "secret", "key", "credential", "token", ".env", "config", "auth"]

/-- A letter in lowercase, as far as the marks can tell: the Kelvin sign is a `k` too. -/
def foldLetter (c : Char) : Char := if c = '\u212a' then 'k' else c.toLower

/-- The first mark in a name, letters taken in any case. -/
def markIn? (name : String) : Option String :=
  credentialMarks.find? fun m => Text.contains m.toList (name.toList.map foldLetter)

/-- The names on the way to a target from the root. -/
def segments (w : Workspace) (p : Path) : List String :=
  ((p.stripPrefix? w.root).getD p.components).filterMap fun
    | .name n => some n
    | _ => none

/-- The first name with a mark in it, and the mark. -/
def markedSegment? (names : List String) : Option (String × String) :=
  names.findSome? fun n => (markIn? n).map (n, ·)

/-- Nothing is written where a name tells of credentials; the program's own directory is free. -/
def credentialExclusion : Rule where
  id := "R-credential-exclusion"
  domain := .codeImplementation
  description := "the agent never writes to credential material"
  predicate a w :=
    let names := segments w a.target
    if !a.kind.isWrite || names.head? = some Workspace.reservedName then .allow
    else
      match markedSegment? names with
      | none => .allow
      | some (name, mark) =>
        .deny ("path segment " ++ Text.quote name ++ " matches credential indicator " ++
          Text.quote mark)

/-- Scans stay inside the workspace. -/
def scanConfinement : Rule where
  id := "R-scan-confinement"
  domain := .diagnostics
  description := "scans are confined to the workspace root"
  predicate a w :=
    if a.kind = .scan && !w.contains a.target then
      .deny s!"{a.target.text} lies outside the workspace"
    else .allow

/-- The root is neither written nor deleted. -/
def rootImmutable : Rule where
  id := "R-root-immutable"
  domain := .codeImplementation
  description := "the workspace root itself is read-only"
  predicate a w :=
    if (a.kind = .write || a.kind = .delete) && a.target.same w.root then
      .deny "target is the workspace root"
    else .allow

/-- Script files stay as they are. -/
def frozenScripts : Rule where
  id := "R-frozen-js"
  domain := .codeImplementation
  description := "javascript sources are frozen"
  predicate a _ :=
    if a.target.extension? = some "js" then .deny "javascript is frozen" else .allow

/-- Nothing is deleted. -/
def nothingDeleted : Rule where
  id := "R-no-delete"
  domain := .documentation
  description := "nothing is deleted"
  predicate a w := if a.kind = .delete then .deny s!"{w.relative a.target} is kept" else .allow

end Steward.Rule

namespace Steward.Constitution

/-- The rules that always hold, in the order in which they are asked. -/
def standard : Constitution :=
  ⟨[.trackedSource, .credentialExclusion, .scanConfinement, .rootImmutable]⟩

end Steward.Constitution
