import Steward.Digest
import Steward.FileTree
import Steward.History
import Steward.Violation

/-!
# Findings

An open violation as the index keeps it. Its identity is a digest of what it is, where it is and its
text, so it survives a move to another line; equal ones in a file are told apart by counting.
-/

namespace Steward

structure Finding where
  id : String
  kind : String
  severity : String
  file : String
  line : Nat
  text : String
  fixable : Bool
  firstSeen : String
deriving DecidableEq, Repr

namespace Finding

def toJson (f : Finding) : Json :=
  .obj
    [("finding_id", .str f.id),
     ("kind", .str f.kind),
     ("severity", .str f.severity),
     ("file", .str f.file),
     ("line", .nat f.line),
     ("text", .str f.text),
     ("fixable", .bool f.fixable),
     ("first_seen", .str f.firstSeen)]

/-- What makes a finding the same at another line. -/
structure Key where
  hazard : Hazard
  file : String
  text : String
deriving DecidableEq, Repr

def keyOf (v : Violation) : Key :=
  ⟨v.hazard, v.file, String.ofList (Text.trim v.text.toList)⟩

/-- The bytes that identify an occurrence of a key: its parts with a separator between them. -/
def keyBytes (k : Key) (occurrence : Nat) : List UInt8 :=
  let sep : List UInt8 := [0x1f]
  Utf8.encode k.hazard.name.toList ++ sep ++ Utf8.encode k.file.toList ++ sep ++
    Utf8.encode k.text.toList ++ sep ++ Utf8.encode (Json.digits occurrence)

/-- The identity of an occurrence of a key: 16 digits of its digest. -/
def idOf (digest : Digest) (k : Key) (occurrence : Nat) : String :=
  String.ofList ((digest (keyBytes k occurrence)).toList.take 16)

/-- When a line was first seen: at its last commit, else when its file was last written. -/
def dateOf (h : History) (t : FileTree) (now : Instant) (file : Path) (line : Nat) : Instant :=
  let fallback := (t.modified? file).getD now
  match h.blame file line with
  | .ok b => if b.committed then b.timestamp else fallback
  | .error _ => fallback

/-- The finding of a violation that is the `occurrence`th of its key. -/
def ofViolation (digest : Digest) (root : Path) (h : History) (t : FileTree) (now : Instant)
    (occurrence : Nat) (v : Violation) : Finding where
  id := idOf digest (keyOf v) occurrence
  kind := v.hazard.name
  severity := v.severity.name
  file := v.file
  line := v.line
  text := (keyOf v).text
  fixable := v.fixable
  firstSeen := (dateOf h t now (root.join v.file) v.line).stamp

/-- Each item with the number of items before it that have the same key; `seen` are the keys before
all of them. -/
def occurrences {α κ : Type} [BEq κ] (key : α → κ) (seen : List κ) : List α → List (Nat × α)
  | [] => []
  | a :: rest => (seen.count (key a), a) :: occurrences key (key a :: seen) rest

/-- The findings of the violations that are not fixed. -/
def ofViolations (digest : Digest) (root : Path) (h : History) (t : FileTree) (now : Instant)
    (vs : List Violation) : List Finding :=
  (occurrences keyOf [] (vs.filter (!·.fixed))).map fun (n, v) =>
    ofViolation digest root h t now n v

/-- What dating the findings asks the history. -/
def asks (root : Path) (vs : List Violation) : List Query :=
  (vs.filter (!·.fixed)).map fun v => .blame (root.join v.file) v.line

end Finding

end Steward
