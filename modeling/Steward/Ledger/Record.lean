import Steward.Counts
import Steward.Digest
import Steward.Instant.Rfc3339
import Steward.Text.Utf8

/-!
# Records of the ledger

A record is an entry together with its time, the hash of the record before it and its own hash. The
hash covers the other hash and the payload: the record's content as JSON with every field present.
-/

namespace Steward.Ledger

/-- What happened, as the one who reports it says. -/
structure Entry where
  action : String
  target : String
  allowed : Bool
  deniedBy : List String := []
  violations : Counts := .empty
  fixes : Counts := .empty
  run : Option String := none
  status : Option String := none
  error : Option String := none
  filesExamined : Option Nat := none
  skipped : Counts := .empty
deriving DecidableEq

/-- A sealed line of the ledger. -/
structure Record where
  ts : String
  entry : Entry
  prevHash : String
  hash : String
deriving DecidableEq

/-- The `prevHash` of the first record. -/
def genesisHash : String := String.ofList (List.replicate 64 '0')

namespace Record

/-- The hashed content of a record. Options are written out as `null`. -/
def payload (ts : String) (e : Entry) : Json :=
  .obj
    [("ts", .str ts),
     ("action", .str e.action),
     ("target", .str e.target),
     ("allowed", .bool e.allowed),
     ("denied_by", .strs e.deniedBy),
     ("violations", e.violations.toJson),
     ("fixes", e.fixes.toJson),
     ("run", .ofOption .str e.run),
     ("status", .ofOption .str e.status),
     ("error", .ofOption .str e.error),
     ("files_examined", .ofOption .nat e.filesExamined),
     ("skipped", e.skipped.toJson)]

/-- The hash that the payload gives after a previous hash. -/
def hashOf (digest : Digest) (prevHash ts : String) (e : Entry) : String :=
  digest (Utf8.encode (prevHash.toList ++ (payload ts e).compactChars))

/-- The hash that a record ought to have. -/
def computeHash (digest : Digest) (r : Record) : String := hashOf digest r.prevHash r.ts r.entry

/-- An entry made into a record. -/
def sealed (digest : Digest) (prevHash ts : String) (e : Entry) : Record :=
  ⟨ts, e, prevHash, hashOf digest prevHash ts e⟩

/-- The time of a record, if its text is one. -/
def timestamp? (r : Record) : Option Instant := Instant.parse? r.ts

/-- A record as JSON. Options without a value are left out, and so are empty `skipped` counts. -/
def toJson (r : Record) : Json :=
  .obj
    ([("ts", .str r.ts),
      ("action", .str r.entry.action),
      ("target", .str r.entry.target),
      ("allowed", .bool r.entry.allowed),
      ("denied_by", .strs r.entry.deniedBy),
      ("violations", r.entry.violations.toJson),
      ("fixes", r.entry.fixes.toJson)] ++
      Json.field? "run" .str r.entry.run ++
      Json.field? "status" .str r.entry.status ++
      Json.field? "error" .str r.entry.error ++
      Json.field? "files_examined" .nat r.entry.filesExamined ++
      (if r.entry.skipped.isEmpty then [] else [("skipped", r.entry.skipped.toJson)]) ++
      [("prev_hash", .str r.prevHash), ("hash", .str r.hash)])

/-- A record as a line, without its terminator. -/
def line (r : Record) : List Char := r.toJson.compactChars

end Record

end Steward.Ledger
