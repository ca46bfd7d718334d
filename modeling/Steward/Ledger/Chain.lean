import Steward.Ledger.Reader
import Steward.Text.Blank
import Steward.Text.Lines

/-!
# The chain of records

The text of a ledger holds one record a line. Blank lines do not count; a line that is no record was
torn by an interrupted write. The chain is valid if each record carries the hash of the one before
it and its own content gives its hash.
-/

namespace Steward.Ledger

/-- The lines of a ledger that are not blank, with their numbers from 1. -/
def numbered (text : List Char) : List (Nat × Text.Line) :=
  ((Text.lines text).zipIdx 1).filterMap fun (l, n) =>
    if Text.isAllBlank l then none else some (n, l)

/-- The records of a ledger, oldest first. -/
def records (text : List Char) : List Record :=
  (numbered text).filterMap fun (_, l) => Record.parse? l

/-- Where and why a chain is broken. -/
inductive ChainBreak where
  | prevHash (line : Nat) (expected found : String)
  | content (line : Nat)
deriving DecidableEq, Repr

namespace ChainBreak

def message : ChainBreak → String
  | prevHash line expected found => s!"line {line}: prev_hash {found} does not match {expected}"
  | content line => s!"line {line}: content does not match its hash"

def toJson : ChainBreak → Json
  | prevHash line expected found =>
    .obj [("kind", .str "prev_hash_mismatch"), ("line", .nat line), ("expected", .str expected),
      ("found", .str found)]
  | content line => .obj [("kind", .str "hash_mismatch"), ("line", .nat line)]

end ChainBreak

/-- What a check of the chain finds: the records and torn lines before the break, if there is one. -/
structure ChainReport where
  records : Nat
  broken : Option ChainBreak
  tornLines : Nat
deriving DecidableEq, Repr

namespace ChainReport

def valid (r : ChainReport) : Bool := r.broken.isNone

def toJson (r : ChainReport) : Json :=
  .obj ([("records", .nat r.records), ("valid", .bool r.valid)] ++
    Json.field? "broken" ChainBreak.toJson r.broken ++ [("torn_lines", .nat r.tornLines)])

end ChainReport

/-- Checks lines that follow a record with hash `prev`; `count` and `torn` are those before. -/
def checkFrom (digest : Digest) (prev : String) (count torn : Nat) :
    List (Nat × Text.Line) → ChainReport
  | [] => ⟨count, none, torn⟩
  | (n, l) :: rest =>
    match Record.parse? l with
    | none => checkFrom digest prev count (torn + 1) rest
    | some r =>
      if r.prevHash ≠ prev then ⟨count, some (.prevHash n prev r.prevHash), torn⟩
      else if r.computeHash digest ≠ r.hash then ⟨count, some (.content n), torn⟩
      else checkFrom digest r.hash (count + 1) torn rest

/-- Checks the chain of a ledger's text. -/
def check (digest : Digest) (text : List Char) : ChainReport :=
  checkFrom digest genesisHash 0 0 (numbered text)

end Steward.Ledger
