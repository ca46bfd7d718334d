import Steward.Instant
import Steward.IoError
import Steward.Path
import Steward.Text.Utf8

/-!
# File trees

A file system as a value: which entry stands at which place. Symbolic links keep the text of their
target. Looking a path up follows links as it goes, at most `FileTree.maxLinks` of them. A look-up
takes a path of limited length; to make a path canonical, only the outcome has to be short enough.
-/

namespace Steward

inductive Entry where
  | dir
  | file (bytes : List UInt8) (modified : Instant)
  | link (target : String)
  /-- A database, whose tables are kept elsewhere under a number. -/
  | database (store : Nat) (modified : Instant)
deriving DecidableEq, Repr

namespace Entry

def isDir : Entry → Bool
  | dir => true
  | _ => false

def isFile : Entry → Bool
  | file .. | database .. => true
  | _ => false

/-- The first bytes of a database. -/
def databaseHeader : List UInt8 := Utf8.encode "SQLite format 3\x00".toList

/-- What a reader gets of a database: bytes that are no text. -/
def databaseBytes : List UInt8 := databaseHeader ++ [0xC8, 0x0D]

/-- The bytes of a file. -/
def bytes? : Entry → Option (List UInt8)
  | file bytes _ => some bytes
  | database .. => some databaseBytes
  | _ => none

/-- When a file was last written. -/
def modified? : Entry → Option Instant
  | file _ at_ | database _ at_ => some at_
  | _ => none

/-- A file with bytes added at its end. Those after a database are not part of it. -/
def appended (now : Instant) (more : List UInt8) : Entry → Entry
  | file bytes _ => file (bytes ++ more) now
  | database store _ => database store now
  | e => e

end Entry

/-- The entries below the top of the file system, and the place where relative paths start. -/
structure FileTree where
  entries : List (Location × Entry) := []
  workingDir : Location := []
deriving Repr

namespace FileTree

/-- The entry at a place. The top is always a directory. -/
def get? (t : FileTree) (l : Location) : Option Entry :=
  if l = [] then some .dir else t.entries.lookup l

/-- The tree without the entry at a place. -/
def erase (t : FileTree) (l : Location) : FileTree :=
  { t with entries := t.entries.filter (·.1 != l) }

/-- The tree with an entry at a place, in place of what was there. -/
def insert (t : FileTree) (l : Location) (e : Entry) : FileTree :=
  { t with entries := (l, e) :: t.entries.filter (·.1 != l) }

/-- The tree without a place and everything below it. -/
def eraseAll (t : FileTree) (l : Location) : FileTree :=
  { t with entries := t.entries.filter fun (k, _) => !l.isPrefixOf k }

/-- The entries below a place by their names from there, depth first with names in byte order. -/
def below (t : FileTree) (l : Location) : List (Location × Entry) :=
  let inside := t.entries.filterMap fun (k, e) =>
    if l.isPrefixOf k && k != l then some (k.drop l.length, e) else none
  inside.mergeSort fun a b => a.1.le b.1

/-- How many links one look-up follows. -/
def maxLinks : Nat := 40

/-- The longest name, in bytes. -/
def maxName : Nat := 255

/-- Paths of this many bytes or more are refused. -/
def maxPath : Nat := 4096

/-- The texts of a path between slashes. -/
def names (text : String) : List String := (Path.split text).filter (· != "")

/-- The steps of a path: its texts between slashes, and an empty one if it ends in a slash after
them. An empty step asks for a directory just as `.` does. -/
def steps (text : String) : List String :=
  if (Path.split text).getLast? = some "" && !(names text).isEmpty then names text ++ [""]
  else names text

/-- How the last step of a path is taken. -/
inductive LastStep where
  /-- A link there is not followed. -/
  | kept
  /-- A link there is followed. -/
  | followed
  /-- A link there is followed. A file is to be there, so no slash may come after the name. -/
  | written
deriving DecidableEq, Repr

/-- Where some steps lead: to an entry, to a free place in a directory, or to a link that has to be
followed before the remaining steps. -/
inductive Reached where
  | entry (at_ : Location)
  | vacant (at_ : Location)
  | detour (from_ : Location) (target : String) (rest : List String)
deriving Repr

/-- Takes steps from a place up to the next link. -/
def advance (t : FileTree) (last : LastStep) (at_ : Location) :
    List String → Except IoError Reached
  | [] => .ok (.entry at_)
  | s :: rest =>
    if (t.get? at_).any (·.isDir) then
      if s = "" || s = "." then advance t last at_ rest
      else if s = ".." then advance t last at_.dropLast rest
      else if last = .written && rest = [""] then .error .isDirectory
      else if maxName < s.utf8ByteSize then .error .nameTooLong
      else
        match t.get? (at_ ++ [s]) with
        | none => if rest.isEmpty then .ok (.vacant (at_ ++ [s])) else .error .notFound
        | some (.link target) =>
          if rest.isEmpty && last = .kept then .ok (.entry (at_ ++ [s]))
          else .ok (.detour at_ target rest)
        | some _ => advance t last (at_ ++ [s]) rest
    else if (t.get? at_).isNone then .error .notFound
    else .error .notDirectory

/-- A place that a path leads to, with or without an entry there. -/
inductive Spot where
  | entry (at_ : Location)
  | vacant (at_ : Location)
deriving DecidableEq, Repr

/-- Takes steps from a place, following up to the given number of links. -/
def walk (t : FileTree) (last : LastStep) : Nat → Location → List String → Except IoError Spot
  | links, at_, ss =>
    match advance t last at_ ss with
    | .error e => .error e
    | .ok (.entry l) => .ok (.entry l)
    | .ok (.vacant l) => .ok (.vacant l)
    | .ok (.detour from_ target rest) =>
      match links with
      | 0 => .error .tooManyLinks
      | links + 1 =>
        walk t last links (if (Path.mk target).isAbsolute then [] else from_)
          (steps target ++ rest)

/-- Where some steps of a path lead. Empty paths and zero bytes are refused at once. -/
def follow (t : FileTree) (last : LastStep) (p : Path) (ss : List String) : Except IoError Spot :=
  if p.text.toList.contains '\x00' then .error .zeroByteInName
  else if p.text.isEmpty then .error .notFound
  else t.walk last maxLinks (if p.isAbsolute then [] else t.workingDir) ss

/-- Whether a path is too long to be looked up. -/
def isOverlong (p : Path) : Bool := maxPath ≤ p.text.utf8ByteSize

/-- Where some steps of a path lead, unless the path is too long. -/
def look (t : FileTree) (last : LastStep) (p : Path) (ss : List String) : Except IoError Spot :=
  if isOverlong p && !p.text.toList.contains '\x00' then .error .nameTooLong
  else t.follow last p ss

/-- Where a path leads. -/
def spot (t : FileTree) (last : LastStep) (p : Path) : Except IoError Spot :=
  t.look last p (steps p.text)

/-- Where a path leads if slashes at its end do not count. -/
def spotOfName (t : FileTree) (p : Path) : Except IoError Spot := t.look .kept p (names p.text)

/-- The place of the entry that a path of any length leads to, with all links followed. -/
def canonical (t : FileTree) (p : Path) : Except IoError Location :=
  match t.follow .followed p (steps p.text) with
  | .error e => .error e
  | .ok (.entry l) => if isOverlong l.path then .error .nameTooLong else .ok l
  | .ok (.vacant l) => .error (if isOverlong l.path then .nameTooLong else .notFound)

/-- The place of the entry that a path leads to. -/
def locate (t : FileTree) (p : Path) : Except IoError Location :=
  match t.spot .followed p with
  | .error e => .error e
  | .ok (.entry l) => .ok l
  | .ok (.vacant _) => .error .notFound

/-- The entry that a path leads to. -/
def find (t : FileTree) (p : Path) : Except IoError Entry :=
  match t.locate p with
  | .error e => .error e
  | .ok l =>
    match t.get? l with
    | some e => .ok e
    | none => .error .notFound

def contains (t : FileTree) (p : Path) : Bool := (t.find p).toOption.isSome

def isDir (t : FileTree) (p : Path) : Bool := (t.find p).toOption.any (·.isDir)

def isFile (t : FileTree) (p : Path) : Bool := (t.find p).toOption.any (·.isFile)

/-- The bytes of the file that a path leads to. -/
def read (t : FileTree) (p : Path) : Except IoError (List UInt8) :=
  match t.find p with
  | .error e => .error e
  | .ok e =>
    match e.bytes? with
    | some bytes => .ok bytes
    | none => .error .isDirectory

/-- The text of the file that a path leads to. -/
def readText (t : FileTree) (p : Path) : Except IoError (List Char) :=
  match t.read p with
  | .error e => .error e
  | .ok bytes =>
    match Utf8.decode bytes with
    | some cs => .ok cs
    | none => .error .invalidUtf8

/-- When the file that a path leads to was last written. -/
def modified? (t : FileTree) (p : Path) : Option Instant := (t.find p).toOption.bind (·.modified?)

end FileTree

end Steward
