import Steward.Config
import Steward.Counts
import Steward.Error
import Steward.FileTree
import Steward.Text.Encoding
import Steward.Violation

/-!
# Surveys

A survey reads the source files at or below a target and lists their violations. Files that are too
large or no text are told apart, not read. Directories are read depth first with names in byte
order; names that start with a dot and ignored directories are left out.
-/

namespace Steward

inductive SkipReason where
  | tooLarge
  | encoding
  | notSource
deriving DecidableEq, Repr

namespace SkipReason

def name : SkipReason → String
  | tooLarge => "TooLarge"
  | encoding => "Encoding"
  | notSource => "NotSourceExtension"

/-- The name under which skipped files are counted. -/
def code : SkipReason → String
  | tooLarge => "SKIPPED_TOO_LARGE"
  | encoding => "SKIPPED_ENCODING"
  | notSource => "SKIPPED_NOT_SOURCE"

end SkipReason

/-- A file that was not read, and why. -/
structure Skip where
  file : String
  reason : SkipReason
  detail : String
deriving DecidableEq, Repr

namespace Skip

def toJson (s : Skip) : Json :=
  .obj [("file", .str s.file), ("reason", .str s.reason.name), ("code", .str s.reason.code),
    ("detail", .str s.detail)]

end Skip

structure Survey where
  violations : List Violation := []
  /-- The files that were read, in order. -/
  examined : List String := []
  skips : List Skip := []
deriving DecidableEq, Repr

namespace Survey

/-- The surveys one after the other. -/
def concat (parts : List Survey) : Survey where
  violations := parts.flatMap (·.violations)
  examined := parts.flatMap (·.examined)
  skips := parts.flatMap (·.skips)

/-- How many files were skipped, by reason. -/
def skipCounts (s : Survey) : Counts := .tally (s.skips.map (·.reason.code))

def toJson (s : Survey) : Json :=
  .obj
    [("violations", .arr (s.violations.map (·.toJson))),
     ("files_examined", .nat s.examined.length),
     ("examined", .strs s.examined),
     ("diagnostics", .arr (s.skips.map (·.toJson)))]

/-- An extension as it is compared: without leading dots, in lowercase. -/
def plainExtension (e : String) : String :=
  Path.asciiLower (String.ofList (e.toList.dropWhile (· = '.')))

/-- Whether a path has one of some extensions, which are plain. -/
def hasExtension (extensions : List String) (p : Path) : Bool :=
  p.extension?.any fun e => extensions.contains (Path.asciiLower e)

/-- The survey of one source file. -/
def ofFile (cfg : Config.Scanner) (file : String) (bytes : List UInt8) : Survey :=
  if cfg.maxFileBytes < bytes.length then
    { skips := [⟨file, .tooLarge,
        s!"{bytes.length} bytes exceeds the {cfg.maxFileBytes} byte cap"⟩] }
  else
    match Encoding.detect bytes with
    | none =>
      { skips := [⟨file, .encoding,
          "not decodable as any of " ++ ", ".intercalate (Encoding.chain.map (·.name))⟩] }
    | some (text, _) => { violations := Violation.ofText file cfg.snippetLen text, examined := [file] }

/-- Whether an entry below the target is a file to be read. -/
def eligible (cfg : Config.Scanner) (extensions : List String) (names : Location) (e : Entry) :
    Bool :=
  e.isFile && names.all (fun n => !n.startsWith ".") &&
    names.dropLast.all (fun n => !cfg.ignoredDirs.contains n) &&
    hasExtension extensions ⟨names.getLastD ""⟩

/-- The survey of the files below a directory. -/
def ofDir (cfg : Config.Scanner) (extensions : List String) (root target : Path)
    (below : List (Location × Entry)) : Survey :=
  concat (below.filterMap fun (names, e) =>
    let path := names.foldl Path.join target
    match e.bytes? with
    | some bytes =>
      if eligible cfg extensions names e && !FileTree.isOverlong path then
        some (ofFile cfg (path.relativeTo root) bytes)
      else none
    | none => none)

/-- The survey of a file or a directory; files are named as seen from `root`. -/
def ofTarget (cfg : Config.Scanner) (extensions : List String) (root : Path) (t : FileTree)
    (target : Path) : Except Error Survey :=
  let extensions := extensions.map plainExtension
  match t.locate target with
  | .error e => .error (.ofIo e)
  | .ok l =>
    match (t.get? l).bind (·.bytes?) with
    | some bytes =>
      let file := target.relativeTo root
      if hasExtension extensions target then .ok (ofFile cfg file bytes)
      else
        .ok { skips := [⟨file, .notSource, "extension is not in the source allow-list"⟩] }
    | none => .ok (ofDir cfg extensions root target (t.below l))

/-- The survey of a target with the configured extensions. -/
def of (cfg : Config.Scanner) (root : Path) (t : FileTree) (target : Path) : Except Error Survey :=
  ofTarget cfg cfg.extensions root t target

end Survey

end Steward
