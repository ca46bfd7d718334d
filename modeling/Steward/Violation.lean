import Steward.Json
import Steward.Fix.Line

/-!
# Violations

What a scan reports: a line with a hazard on it. Each line is read on its own, and the first
detector that finds something decides.
-/

namespace Steward

open Text (Line)

structure Violation where
  hazard : Hazard
  /-- The file, as seen from the workspace root. -/
  file : String
  /-- Counted from one. -/
  line : Nat
  severity : Severity
  /-- The line without space at its end, cut to the configured length. -/
  text : String
  fixable : Bool
  suggestion : Option String := none
  fixed : Bool := false
deriving DecidableEq, Repr

namespace Violation

/-- The line shortened to `limit` characters, with an ellipsis if anything was cut. -/
def preview (limit : Nat) (line : Line) : String :=
  let t := Text.trimEnd line
  if t.length ≤ limit then String.ofList t else String.ofList (t.take limit ++ ['…'])

/-- The violation on one line. -/
def ofLine? (l : Language) (file : String) (limit : Nat) (line : Line) (number : Nat) :
    Option Violation :=
  (Detector.first? l line).map fun d =>
    { hazard := d.hazard
      file
      line := number
      severity := d.severity
      text := preview limit line
      fixable := d.fixable && Fix.canFix d.hazard l
      suggestion := d.suggestion }

/-- The violations of a text, read in the language of the file's name. -/
def ofText (file : String) (limit : Nat) (text : List Char) : List Violation :=
  let l := Language.ofPath ⟨file⟩
  (Text.lines text).zipIdx.filterMap fun (line, i) => ofLine? l file limit line (i + 1)

def toJson (v : Violation) : Json :=
  .obj ([("kind", .str v.hazard.name), ("file", .str v.file), ("line", .nat v.line),
      ("severity", .str v.severity.name), ("text", .str v.text), ("fixable", .bool v.fixable)] ++
    Json.field? "suggested_fix" .str v.suggestion ++ [("fixed", .bool v.fixed)])

end Violation

end Steward
