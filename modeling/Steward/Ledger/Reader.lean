import Steward.Json.Reader
import Steward.Ledger.Record

/-!
# Reading records

A record is read from an object with its fields in any order, or from an array of all its fields in
their order. Fields of other names are passed over; a field of the record may occur once only.
-/

namespace Steward.Ledger

open Json.Reader

/-- A field as it is read. -/
inductive Field where
  | ts (s : String)
  | action (s : String)
  | target (s : String)
  | allowed (b : Bool)
  | deniedBy (ids : List String)
  | violations (m : Counts)
  | fixes (m : Counts)
  | run (s : Option String)
  | status (s : Option String)
  | error (s : Option String)
  | filesExamined (n : Option Nat)
  | skipped (m : Counts)
  | prevHash (s : String)
  | hash (s : String)
  /-- A field that is none of the record's. -/
  | other
deriving DecidableEq

namespace Field

/-- Counts by name. Of two under one name the last counts. -/
def readCounts (cs : List Char) : Option (Counts × List Char) :=
  (readObject (fun name cs => (readCount cs).map fun (n, rest) => ((name, n), rest)) cs).map
    fun (xs, rest) => (Counts.ofList xs, rest)

/-- Reads the value of a field by the field's name. -/
def read (name : String) (cs : List Char) : Option (Field × List Char) :=
  let as {α : Type} (f : α → Field) (r : Option (α × List Char)) : Option (Field × List Char) :=
    r.map fun (a, rest) => (f a, rest)
  match name with
  | "ts" => as ts (readString cs)
  | "action" => as action (readString cs)
  | "target" => as target (readString cs)
  | "allowed" => as allowed (readBool cs)
  | "denied_by" => as deniedBy (readArray readString cs)
  | "violations" => as violations (readCounts cs)
  | "fixes" => as fixes (readCounts cs)
  | "run" => as run (readOption readString cs)
  | "status" => as status (readOption readString cs)
  | "error" => as error (readOption readString cs)
  | "files_examined" => as filesExamined (readOption readCount cs)
  | "skipped" => as skipped (readCounts cs)
  | "prev_hash" => as prevHash (readString cs)
  | "hash" => as hash (readString cs)
  | _ => (skipValue cs).map fun rest => (other, rest)

/-- The names of a record's fields in their order. -/
def names : List String :=
  ["ts", "action", "target", "allowed", "denied_by", "violations", "fixes", "run", "status",
    "error", "files_examined", "skipped", "prev_hash", "hash"]

/-- The values of the given fields, each behind a comma but the first, up to the closing bracket. -/
def readInOrder : List String → Bool → List Char → Option (List Field × List Char)
  | [], _, cs => (expect ']' cs).map fun rest => ([], rest)
  | name :: names, first, cs => do
    let cs ← if first then some cs else expect ',' cs
    let (f, rest) ← read name cs
    let (fs, rest) ← readInOrder names false rest
    return (f :: fs, rest)

/-- The one value of a kind among some fields: none if there is none, nothing at all if there are
several. -/
def unique? {α : Type} (pick : Field → Option α) (fs : List Field) : Option (Option α) :=
  match fs.filterMap pick with
  | [] => some none
  | [a] => some (some a)
  | _ => none

end Field

namespace Record

/-- The record that some fields make up. -/
def ofFields? (fs : List Field) : Option Record := do
  let ts ← (← Field.unique? (fun | .ts s => some s | _ => none) fs)
  let action ← (← Field.unique? (fun | .action s => some s | _ => none) fs)
  let target ← (← Field.unique? (fun | .target s => some s | _ => none) fs)
  let allowed ← (← Field.unique? (fun | .allowed b => some b | _ => none) fs)
  let deniedBy ← Field.unique? (fun | .deniedBy ids => some ids | _ => none) fs
  let violations ← Field.unique? (fun | .violations m => some m | _ => none) fs
  let fixes ← Field.unique? (fun | .fixes m => some m | _ => none) fs
  let run ← Field.unique? (fun | .run s => some s | _ => none) fs
  let status ← Field.unique? (fun | .status s => some s | _ => none) fs
  let error ← Field.unique? (fun | .error s => some s | _ => none) fs
  let filesExamined ← Field.unique? (fun | .filesExamined n => some n | _ => none) fs
  let skipped ← Field.unique? (fun | .skipped m => some m | _ => none) fs
  let prevHash ← (← Field.unique? (fun | .prevHash s => some s | _ => none) fs)
  let hash ← (← Field.unique? (fun | .hash s => some s | _ => none) fs)
  return {
    ts, prevHash, hash
    entry := {
      action, target, allowed
      deniedBy := deniedBy.getD []
      violations := violations.getD .empty
      fixes := fixes.getD .empty
      run := run.join
      status := status.join
      error := error.join
      filesExamined := filesExamined.join
      skipped := skipped.getD .empty } }

/-- The fields of a record, from an object or from an array. -/
def readFields (cs : List Char) : Option (List Field × List Char) :=
  match skipSpace cs with
  | '[' :: rest => Field.readInOrder Field.names true rest
  | cs => readObject Field.read cs

/-- Reads a record from a line. -/
def parse? (line : List Char) : Option Record := (readAll readFields line).bind ofFields?

end Record

end Steward.Ledger
