import Steward.Decision
import Steward.IoError
import Steward.Text.Quoted

/-!
# Errors

Everything that can go wrong, with the name under which it is recorded and the message that is
shown.
-/

namespace Steward

/-- What the database itself says of a failure. -/
inductive DatabaseFault where
  | cannotOpen
  | notDatabase
  /-- A path has a zero byte, at a position counted in bytes. -/
  | zeroByte (position : Nat)
deriving DecidableEq, Repr

namespace DatabaseFault

def message : DatabaseFault → String
  | cannotOpen => "Error code 14: Unable to open the database file"
  | notDatabase => "Error code 26: File opened that is not a database file"
  | zeroByte n => s!"nul byte found in provided data at position: {n}"

end DatabaseFault

inductive Error where
  /-- A path leads out of the workspace. -/
  | containment (path : String) (root : Path)
  /-- A rule forbids the action. -/
  | denial (deniedBy violations : List String)
  /-- The version history does not answer. -/
  | noHistory (reason : String)
  | fixNotApplicable (reason : String)
  | fixFailed (reason : String)
  /-- The ledger cannot be written. -/
  | auditWrite (reason : String)
  | indexStale
  | config (reason : String)
  | io (reason : String)
  | index (reason : String) (fault : Option DatabaseFault)
deriving DecidableEq, Repr

namespace Error

def kind : Error → String
  | containment .. => "ContainmentError"
  | denial .. => "ConstitutionalDenial"
  | noHistory _ => "VcsUnavailable"
  | fixNotApplicable _ => "FixNotApplicable"
  | fixFailed _ => "FixFailedIO"
  | auditWrite _ => "AuditWriteFailure"
  | indexStale => "IndexStale"
  | config _ => "ConfigError"
  | io _ => "IoError"
  | index .. => "IndexError"

def message : Error → String
  | containment path root =>
    "path " ++ Text.quote path ++ " resolves outside workspace root " ++ Text.quote root.text
  | denial deniedBy violations =>
    "constitutional denial by [" ++ ", ".intercalate deniedBy ++ "]: " ++ "; ".intercalate violations
  | noHistory reason => "version control unavailable: " ++ reason
  | fixNotApplicable reason => "fix not applicable: " ++ reason
  | fixFailed reason => "fix failed after retries: " ++ reason
  | auditWrite reason => "audit write failed: " ++ reason
  | indexStale => "memory index is stale and must be rebuilt"
  | config reason => "invalid configuration: " ++ reason
  | io reason => reason
  | index reason _ => reason

/-- The message together with what caused the error. -/
def fullMessage : Error → String
  | index reason (some fault) => reason ++ ": " ++ fault.message
  | e => e.message

/-- The rules that deny, if this is a denial. -/
def deniedBy : Error → List String
  | denial ids _ => ids
  | _ => []

/-- The error of a decision that forbids. -/
def ofDecision (d : Decision) : Error := .denial d.deniedBy d.violations

/-- An input or output error as it is. -/
def ofIo (e : IoError) : Error := .io e.message

/-- An input or output error of the ledger. -/
def ofAudit (e : IoError) : Error := .auditWrite e.message

/-- Names, message and rules as shown to a caller. -/
def toJson (e : Error) : Json :=
  .obj [("error", .str e.kind), ("message", .str e.message), ("denied_by", .strs e.deniedBy)]

end Error

end Steward
