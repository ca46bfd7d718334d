import Steward.FileTree

/-!
# Changing a file tree

Operations that change files and may fail part of the way; what they did before failing stays done.
`Disk.writeAtomic` replaces a file as a whole: it writes a sibling and renames it over the target.
-/

namespace Steward

/-- An operation on a file tree. -/
abbrev Disk (α : Type) := EStateM IoError FileTree α

namespace Disk

/-- The answer of a question to the tree. -/
def ask {α : Type} (f : FileTree → Except IoError α) : Disk α := do
  match f (← get) with
  | .ok a => pure a
  | .error e => throw e

/-- Makes a directory. Whatever is there already is an error, a link included. -/
def makeDir (p : Path) : Disk Unit := do
  match ← ask (·.spotOfName p) with
  | .entry _ => throw .alreadyExists
  | .vacant l => modify (·.insert l .dir)

/-- Makes a directory unless the path already leads to one. -/
def ensureDir (p : Path) : Disk Unit := fun t =>
  match makeDir p t with
  | .ok () t' => .ok () t'
  | .error e t' => if t'.isDir p then .ok () t' else .error e t'

/-- Makes a directory and its missing parents, at most `depth` of them. -/
def makeDirsFrom : Nat → Path → Disk Unit
  | 0, p => ensureDir p
  | depth + 1, p => fun t =>
    if p.text.isEmpty then .ok () t
    else
      match makeDir p t with
      | .ok () t' => .ok () t'
      | .error .notFound t' =>
        match p.parent? with
        | none => .error .notFound t'
        | some q =>
          match makeDirsFrom depth q t' with
          | .error e t'' => .error e t''
          | .ok () t'' => ensureDir p t''
      | .error e t' => if t'.isDir p then .ok () t' else .error e t'

/-- Makes a directory and its missing parents. -/
def makeDirs (p : Path) : Disk Unit := makeDirsFrom (p.text.length + 1) p

/-- Makes the missing parents of a path. -/
def makeParents (p : Path) : Disk Unit :=
  match p.parent? with
  | none => pure ()
  | some q => makeDirs q

/-- Puts another file where a path leads to one, computed from the old one; at a free place from an
empty one. -/
def update (now : Instant) (p : Path) (f : Entry → Entry) : Disk Unit := do
  match ← ask (·.spot .written p) with
  | .vacant l => modify (·.insert l (f (.file [] now)))
  | .entry l =>
    match (← get).get? l with
    | some e => if e.isFile then modify (·.insert l (f e)) else throw .isDirectory
    | none => throw .notFound

def write (now : Instant) (p : Path) (bytes : List UInt8) : Disk Unit :=
  update now p fun _ => .file bytes now

def append (now : Instant) (p : Path) (bytes : List UInt8) : Disk Unit :=
  update now p (·.appended now bytes)

/-- Makes a symbolic link. -/
def makeLink (p : Path) (target : String) : Disk Unit := do
  match ← ask (·.spot .kept p) with
  | .entry _ => throw .alreadyExists
  | .vacant l => modify (·.insert l (.link target))

/-- Removes a file or a link. -/
def removeFile (p : Path) : Disk Unit := do
  match ← ask (·.spot .kept p) with
  | .vacant _ => throw .notFound
  | .entry l => if ((← get).get? l).any (·.isDir) then throw .isDirectory else modify (·.erase l)

/-- Whether the last step of a path is no name. -/
def endsInDots (p : Path) : Bool :=
  let last := ((Path.split p.text).filter (· != "")).getLast?
  last = none || last = some "." || last = some ".."

/-- Moves a file or a link over another path; a directory there is not replaced. The ways to both
are gone before either is looked at. -/
def rename (p q : Path) : Disk Unit := do
  let from_ ← ask (·.spotOfName p)
  let onto ← ask (·.spotOfName q)
  if endsInDots p || endsInDots q then throw .busy
  match from_ with
  | .vacant _ => throw .notFound
  | .entry l =>
    match (← get).get? l with
    | none => throw .notFound
    | some e =>
      if q.text.toList.getLast? = some '/' then throw .notDirectory
      match onto with
      | .vacant m => modify fun t => (t.erase l).insert m e
      | .entry m =>
        if ((← get).get? m).any (·.isDir) then throw .isDirectory
        if l = m then pure () else modify fun t => (t.erase l).insert m e

/-- The path of the sibling that a new content is first written to. -/
def tempSibling (p : Path) : Path := p.sibling ".tmp"

/-- Puts a file in place as a whole, with its missing parents. On failure the sibling is removed. -/
def writeAtomic (now : Instant) (p : Path) (bytes : List UInt8) : Disk Unit := do
  makeParents p
  let tmp := tempSibling p
  try
    write now tmp bytes
    rename tmp p
  catch e =>
    try removeFile tmp catch _ => pure ()
    throw e

/-- Runs an operation: its answer and the tree after it. -/
def exec {α : Type} (d : Disk α) (t : FileTree) : Except IoError α × FileTree :=
  match d.run t with
  | .ok a t' => (.ok a, t')
  | .error e t' => (.error e, t')

end Disk

end Steward
