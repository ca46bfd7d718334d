import Steward.Config
import Steward.Counts
import Steward.FileTree.Disk
import Steward.Fix.Text
import Steward.Text.Encoding

/-!
# Fixing a file

The fixed text is written in place of the old one, after a copy of the old bytes has been put beside
the file. A copy that is already there is kept. Writing is tried several times, with waits in
between that double; if it fails for good, the file is as it was.
-/

namespace Steward

/-- What became of a file's violations. -/
structure FileReport where
  file : String
  fixes : List LineFix
  /-- The copy of the old bytes, if one was made. -/
  backup : Option Path := none
  written : Bool := false
  encoding : Option Encoding := none
deriving Repr

namespace FileReport

/-- The fixes that were made. -/
def made (r : FileReport) : List LineFix := r.fixes.filter (·.outcome.isFixed)

def fixedCount (r : FileReport) : Nat := r.made.length

def fixesByKind (r : FileReport) : Counts := .tally (r.made.map (·.hazard.name))

/-- The first failure. -/
def failure? (r : FileReport) : Option FixFailure := r.fixes.findSome? (·.outcome.failure?)

/-- The report with every fix failed for a reason. -/
def withFailure (r : FileReport) (why : FixFailure) : FileReport :=
  { r with
    fixes := r.fixes.map fun f => if f.outcome.isFixed then { f with outcome := .failed why } else f }

def toJson (r : FileReport) : Json :=
  .obj ([("file", .str r.file), ("fixes", .arr (r.fixes.map (·.toJson)))] ++
    Json.field? "backup" (fun p => .str p.text) r.backup ++ [("written", .bool r.written)] ++
    Json.field? "encoding" (fun e => .str (Encoding.tag e)) r.encoding)

end FileReport

namespace Fix

/-- The path of the copy that is kept of a file. -/
def backupPath (p : Path) : Path := p.sibling ".backup"

/-- The longest wait, in milliseconds. -/
def maxDelay : Nat := 18446744073709551615

/-- What came of trying something several times. -/
structure Retried (σ ε : Type) where
  result : Except ε Unit
  state : σ
  /-- The waits between the attempts, in milliseconds. -/
  sleeps : List Nat

/-- Tries something once and, while it fails, up to `more` times again. The waits double. -/
def retry {σ ε : Type} (attempt : σ → Except ε Unit × σ) : Nat → Nat → σ → Retried σ ε
  | 0, _, s =>
    let (r, s) := attempt s
    ⟨r, s, []⟩
  | more + 1, delay, s =>
    match attempt s with
    | (.ok (), s) => ⟨.ok (), s, []⟩
    | (.error _, s) =>
      let r := retry attempt more (min (2 * delay) maxDelay) s
      { r with sleeps := delay :: r.sleeps }

/-- The state that fixing files works on. -/
structure Bench where
  tree : FileTree
  /-- The files that need no copy any more in this run. -/
  backedUp : List Path := []
  /-- The waits so far, in milliseconds; one of no length does not count. -/
  sleeps : List Nat := []
deriving Repr

namespace Bench

def isBackedUp (b : Bench) (p : Path) : Bool := b.backedUp.any (·.same p)

/-- Makes sure that there is a copy of a file's old bytes. A copy that is there is kept. -/
def ensureBackup (b : Bench) (now : Instant) (p : Path) (bytes : List UInt8) :
    Except IoError (Option Path) × Bench :=
  if b.isBackedUp p then (.ok none, b)
  else if b.tree.contains (backupPath p) then (.ok none, { b with backedUp := p :: b.backedUp })
  else
    match (Disk.writeAtomic now (backupPath p) bytes).exec b.tree with
    | (.ok (), tree) => (.ok (some (backupPath p)), { b with tree, backedUp := p :: b.backedUp })
    | (.error e, tree) => (.error e, { b with tree })

/-- Writes a file, trying as often as configured. -/
def write (b : Bench) (cfg : Config.Fixer) (now : Instant) (p : Path) (bytes : List UInt8) :
    Except IoError Unit × Bench :=
  let r := retry (Disk.writeAtomic now p bytes).exec (cfg.maxAttempts - 1) cfg.backoffMs b.tree
  (r.result, { b with tree := r.state, sleeps := b.sleeps ++ r.sleeps.filter (0 < ·) })

/-- Takes a copy that was just made away again. -/
def dropBackup (b : Bench) (p backup : Path) : Bench :=
  { b with
    tree := ((Disk.removeFile backup).exec b.tree).2
    backedUp := b.backedUp.filter (!·.same p) }

end Bench

/-- Puts the fixed text of a file in its place. -/
def replace (cfg : Config.Fixer) (now : Instant) (p : Path) (old : List UInt8) (new : List Char)
    (report : FileReport) (b : Bench) : FileReport × Bench :=
  match b.ensureBackup now p old with
  | (.error e, b) => (report.withFailure (.backup e), b)
  | (.ok made, b) =>
    match b.write cfg now p (Utf8.encode new) with
    | (.ok (), b) => ({ report with written := true, backup := made }, b)
    | (.error e, b) =>
      (report.withFailure (.write e),
        match made with
        | some backup => b.dropBackup p backup
        | none => b)

/-- Fixes the violations of a file as far as possible. -/
def file (cfg : Config.Fixer) (now : Instant) (p : Path) (name : String) (vs : List Violation)
    (b : Bench) : FileReport × Bench :=
  let all (o : Outcome) : List LineFix := (ordered vs).map fun v => ⟨v.hazard, v.line, o⟩
  match b.tree.read p with
  | .error e => ({ file := name, fixes := all (.failed (.read e)) }, b)
  | .ok bytes =>
    match Encoding.detect bytes with
    | none => ({ file := name, fixes := all (.notApplicable .undecodable) }, b)
    | some (source, encoding) =>
      let (fixes, new?) := text (Language.ofPath p) vs source
      let report : FileReport := { file := name, fixes, encoding := some encoding }
      match new? with
      | none => (report, b)
      | some new => replace cfg now p bytes new report b

end Fix

end Steward
