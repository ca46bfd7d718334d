import Steward.Error
import Steward.FileTree
import Steward.History

/-!
# The workspace

A directory, with the version history around it, that everything done is confined to. A path given by
a caller is resolved before it is used: links are followed one name at a time as far as the path
exists, and what comes out must lie inside.
-/

namespace Steward

structure Workspace where
  /-- The canonical path of the directory. -/
  root : Path
  history : History

namespace Workspace

/-- The name of the directory that the program keeps its own files in. -/
def reservedName : String := ".jarvis"

def reservedDir (w : Workspace) : Path := w.root.join reservedName

/-- The path as seen from the root. -/
def relative (w : Workspace) (p : Path) : String := p.relativeTo w.root

def contains (w : Workspace) (p : Path) : Bool := p.isUnder w.root

/-- Whether the root holds version-control metadata. -/
def hasMetadata (w : Workspace) (t : FileTree) : Bool := t.contains (w.root.join ".git")

/-- How a workspace shows in diagnostics. -/
def debug (w : Workspace) : String :=
  "Workspace \x7b root: " ++ Text.quote w.root.text ++ " \x7d"

/-- How far the resolution of a path has come: the place so far, and whether it exists. -/
structure Progress where
  at_ : Location
  onDisk : Bool
deriving DecidableEq, Repr

/-- Takes one component of a path. Names are looked up as long as everything before them exists. -/
def step (t : FileTree) (s : Progress) : Component → Except IoError Progress
  | .top | .here => .ok s
  | .up => .ok { s with at_ := s.at_.dropLast }
  | .name n =>
    if s.onDisk then
      match t.canonical (s.at_ ++ [n]).path with
      | .ok l => .ok ⟨l, true⟩
      | .error .notFound => .ok ⟨s.at_ ++ [n], false⟩
      | .error e => .error e
    else .ok ⟨s.at_ ++ [n], false⟩

/-- The place that an absolute path leads to, be it free or not. -/
def settle (t : FileTree) (p : Path) : Except IoError Location :=
  (p.components.foldlM (step t) ⟨[], true⟩).map (·.at_)

/-- The path that is meant by a text, seen from a root. -/
def candidate (root : Location) (raw : String) : Path := root.path.join raw

/-- Resolves a path given by a caller to a place inside the workspace. -/
def resolveLocation (t : FileTree) (raw : String) (root : Path) : Except Error Location := do
  let root ← (t.canonical root).mapError .ofIo
  let l ← (settle t (candidate root raw)).mapError .ofIo
  if root.isPrefixOf l then return l else throw (.containment raw root.path)

/-- The path of the place inside the workspace that a given path leads to. -/
def resolve (w : Workspace) (t : FileTree) (raw : String) : Except Error Path :=
  (resolveLocation t raw w.root).map (·.path)

end Workspace

end Steward
