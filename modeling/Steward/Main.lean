import Steward.Command.Execute
import Steward.History.Repository

/-!
# The program

Reads the workspace into a tree, does there what the arguments ask for, and writes the entries that
changed. Database files are left alone: each run makes its index anew.
-/

namespace Steward.Main

/-- The time now, which the file system gives to a new file. -/
def clock : IO Instant := do
  let (_, path) ← IO.FS.createTempFile
  let stamp := (← path.metadata).modified
  IO.FS.removeFile path
  return ⟨stamp.sec, stamp.nsec.toNat⟩

/-- Where the count of runs starts, so that runs at different times have different identifiers. -/
def firstRun (now : Instant) : Nat := now.seconds.toNat * 1000 + now.nanos / 1000000

/-- The place that a path leads to, if there is one. -/
def place? (path : String) : IO (Option Location) := do
  let .ok real ← (IO.FS.realPath path).toBaseIO | return none
  return some (History.Repository.placeOf ⟨real.toString⟩)

/-- A place without an entry, for links that lead nowhere. -/
def nowhere : String := "/nonexistent/entry"

/-- The tree with directories on the way to a place. -/
def withParents (t : FileTree) (l : Location) : FileTree :=
  (History.Repository.upTo l.dropLast).foldl
    (fun t k => if (t.get? k).isSome then t else t.insert k .dir) t

/-- The tree with the file at a place, unless it cannot be read or is a database. -/
def loadFile (t : FileTree) (l : Location) (modified : Instant) : IO FileTree := do
  let .ok bytes ← (IO.FS.readBinFile l.path.text).toBaseIO | return t
  if Entry.databaseHeader.isPrefixOf bytes.toList then return t
  return t.insert l (.file bytes.toList modified)

/-- The tree with the entry at a place and all below it. Of a repository only the index is read. A
link keeps the place that it leads to, which gets an entry as well. -/
partial def load (t : FileTree) (l : Location) : IO FileTree := do
  let parent : Location := l.dropLast
  let .ok dir ← (IO.FS.realPath parent.path.text).toBaseIO | return t
  let path := dir / l.getLastD ""
  let .ok info ← path.symlinkMetadata.toBaseIO | return t
  let modified : Instant := ⟨info.modified.sec, info.modified.nsec.toNat⟩
  match info.type with
  | .file => loadFile t l modified
  | .other => return t
  | .dir =>
    let mut t := t.insert l .dir
    if l.getLast? = some ".git" then return ← loadFile t (l ++ ["index"]) modified
    let .ok found ← path.readDir.toBaseIO | return t
    for e in found do
      t ← load t (l ++ [e.fileName])
    return t
  | .symlink =>
    let some target ← place? path.toString | return t.insert l (.link nowhere)
    let t := t.insert l (.link target.path.text)
    if (t.get? target).isSome then return t
    let t := withParents t target
    if ← path.isDir then return t.insert target .dir
    loadFile t target modified

/-- The tree with the workspace at a place and the repositories around it. -/
def loadWorkspace (root : Location) : IO FileTree := do
  let mut t ← load (withParents {} root) root
  for l in History.Repository.upTo root.dropLast do
    t ← load t (l ++ [".git"])
  return t

/-- Writes what changed from one tree to the next. -/
def store (before after : FileTree) : IO Unit := do
  for (l, e) in after.below [] do
    unless before.get? l = some e do
      match e with
      | .dir => IO.FS.createDirAll l.path.text
      | .file bytes _ => IO.FS.writeBinFile l.path.text ⟨bytes.toArray⟩
      | .link _ | .database .. => pure ()
  for (l, e) in before.below [] do
    if e.isFile && (after.get? l).isNone then IO.FS.removeFile l.path.text

end Steward.Main

open Steward in
def main (args : List String) : IO UInt32 := do
  let environment ← IO.getEnv "JARVIS_WORKSPACE"
  let workingDir := (← Main.place? ".").getD []
  let now ← Main.clock
  let empty : Host :=
    { tree := { workingDir }, now, git := fun _ => .error IoError.notFound.message
      runsDrawn := Main.firstRun now }
  let host ←
    match Request.ofArguments args with
    | .run i =>
      match ← Main.place? (i.root environment empty).text with
      | some root =>
        let tree := { ← Main.loadWorkspace root with workingDir }
        pure { empty with tree, git := History.Repository.runner tree root }
      | none => pure empty
    | _ => pure empty
  let (result, after) := Request.execute args environment host
  Main.store host.tree after.tree
  IO.print result.stdout
  return result.exit.toUInt32
