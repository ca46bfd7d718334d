import Steward.History.Git

/-!
# A repository as its files tell of it

Where a repository starts and which files its index lists can be read from its files, so `runner`
answers these two questions the way `git` does. It does not read commits: questions about them get a
complaint.
-/

namespace Steward.History.Repository

/-- A number written in bytes, the most significant first. -/
def number (bytes : List UInt8) : Nat := bytes.foldl (fun n b => n * 256 + b.toNat) 0

/-- How many bytes of an index entry stand before its flags. -/
def flagsAt : Nat := 60

/-- Whether the flags of an entry announce two more bytes of flags. -/
def isExtended (flags : Nat) : Bool := flags / 0x4000 % 2 = 1

/-- The name in an index entry, and what follows the entry. Entries are filled up with one to eight
zeros, to a multiple of eight bytes. -/
def readEntry? (bytes : List UInt8) : Option (String × List UInt8) := do
  let start := flagsAt + if isExtended (number ((bytes.drop flagsAt).take 2)) then 4 else 2
  let name := (bytes.drop start).takeWhile (· ≠ 0)
  if name.isEmpty then none
  else
    let size := start + name.length
    return (String.ofList (Utf8.decodeLossy name), bytes.drop (size + (8 - size % 8)))

/-- The names in the given number of index entries. -/
def readEntries? : Nat → List UInt8 → Option (List String)
  | 0, _ => some []
  | n + 1, bytes => do
    let (name, rest) ← readEntry? bytes
    return name :: (← readEntries? n rest)

/-- The files that an index lists, if it is of a version that writes each name in full. -/
def readIndex? (bytes : List UInt8) : Option (List String) :=
  let version := number ((bytes.drop 4).take 4)
  if bytes.take 4 = Utf8.encode "DIRC".toList && (version = 2 || version = 3) then
    readEntries? (number ((bytes.drop 8).take 4)) (bytes.drop 12)
  else none

/-- The places from the top down to a place. -/
def upTo (l : Location) : List Location := (List.range (l.length + 1)).map l.take

/-- The nearest place, from a place upwards, that holds a repository. -/
def top? (t : FileTree) (l : Location) : Option Location :=
  (upTo l).reverse.find? fun k => (t.get? (k ++ [".git"])).isSome

/-- The files that the repository at a place tracks, seen from there. -/
def tracked (t : FileTree) (top : Location) : List String :=
  match t.get? (top ++ [".git", "index"]) with
  | some (.file bytes _) => (readIndex? bytes).getD []
  | _ => []

/-- The tracked files at or below a place. -/
def trackedBelow (t : FileTree) (top l : Location) : List String :=
  (tracked t top).filter fun f => (l.drop top.length).isPrefixOf (Path.split f)

/-- The place of a path without links in it. -/
def placeOf (p : Path) : Location :=
  p.components.filterMap fun
    | .name n => some n
    | _ => none

def success (stdout : List Char) : Git.Output := ⟨Utf8.encode stdout, [], 0⟩

def complaint (s : String) : Git.Output := ⟨[], Utf8.encode s.toList, 128⟩

/-- The answers for a workspace whose root has a canonical place. -/
def runner (t : FileTree) (root : Location) : Git.Runner := fun args =>
  .ok <|
    match top? t root with
    | none => complaint "fatal: not a git repository (or any of the parent directories): .git"
    | some top =>
      match args with
      | ["rev-parse", "--show-toplevel"] => success (top.path.text.toList ++ ['\n'])
      | ["ls-files", "-z", "--", p] =>
        let l := placeOf (root.path.join p)
        if top.isPrefixOf l then
          success ((trackedBelow t top l).flatMap fun f => f.toList ++ ['\x00'])
        else complaint s!"fatal: {p}: '{p}' is outside repository at '{top.path.text}'"
      | _ => complaint "fatal: commits are not read"

end Steward.History.Repository
