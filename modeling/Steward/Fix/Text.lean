import Steward.Fix.Preamble
import Steward.Violation
import Steward.IoError

/-!
# Fixing a text

Violations are handled from the last line up, so that line numbers stay valid; the preambles that
the replacements need go in at the end. What comes out is a new text, or none if nothing was fixed.
-/

namespace Steward

open Text (Line)

/-- Why a fix does not apply. -/
inductive Inapplicable where
  | lineGone (line : Nat)
  | patternGone
  | needsRotation
  | noTransform
  | alreadyFixed
  | undecodable
deriving DecidableEq, Repr

namespace Inapplicable

def message : Inapplicable → String
  | lineGone n => s!"line {n} no longer exists"
  | patternGone => "pattern no longer present"
  | needsRotation => "credential must be rotated by a human"
  | noTransform => "no transform for this file type"
  | alreadyFixed => "already in fixed form"
  | undecodable => "file no longer decodes as text"

end Inapplicable

/-- The step of a file's fix that failed, and how. -/
inductive FixFailure where
  | read (e : IoError)
  | backup (e : IoError)
  | write (e : IoError)
deriving DecidableEq, Repr

namespace FixFailure

def message : FixFailure → String
  | read e => "read failed: " ++ e.message
  | backup e => "backup failed: " ++ e.message
  | write e => "write failed: " ++ e.message

end FixFailure

inductive Outcome where
  | fixed
  | notApplicable (why : Inapplicable)
  | failed (why : FixFailure)
deriving DecidableEq, Repr

namespace Outcome

def isFixed : Outcome → Bool
  | fixed => true
  | _ => false

def failure? : Outcome → Option FixFailure
  | failed why => some why
  | _ => none

end Outcome

/-- What became of one violation. -/
structure LineFix where
  hazard : Hazard
  line : Nat
  outcome : Outcome
deriving DecidableEq, Repr

namespace LineFix

/-- The kind of outcome and its explanation. -/
def outcomeText (f : LineFix) : String × String :=
  match f.outcome with
  | .fixed => ("Fixed", s!"{f.hazard.name} fixed at line {f.line}")
  | .notApplicable why => ("NotApplicable", why.message)
  | .failed why => ("FailedIO", why.message)

def toJson (f : LineFix) : Json :=
  .obj [("kind", .str f.hazard.name), ("line", .nat f.line), ("outcome", .str f.outcomeText.1),
    ("detail", .str f.outcomeText.2)]

end LineFix

namespace Fix

/-- The fix of one hazard on one line. -/
def onLine (l : Language) (h : Hazard) (line : Line) : Outcome × Line :=
  if ((Detector.ofHazard h).find? l line).isNone then (.notApplicable .patternGone, line)
  else if !canFix h l then
    (.notApplicable (if h = .awsAccessKey then .needsRotation else .noTransform), line)
  else
    match line? l h line with
    | some new => (.fixed, new)
    | none => (.notApplicable .alreadyFixed, line)

/-- The fix of one hazard on the line with a number, counted from one. -/
def onLines (l : Language) (h : Hazard) (number : Nat) (lines : List Line) : Outcome × List Line :=
  match number with
  | 0 => (.notApplicable (.lineGone 0), lines)
  | i + 1 =>
    match lines[i]? with
    | none => (.notApplicable (.lineGone (i + 1)), lines)
    | some line =>
      let (outcome, new) := onLine l h line
      (outcome, lines.set i new)

/-- The state of a pass over a file's violations. -/
structure Pass where
  fixes : List LineFix := []
  preambles : List Preamble := []
  lines : List Line
deriving Repr

namespace Pass

/-- The pass after one more violation. -/
def step (l : Language) (p : Pass) (v : Violation) : Pass :=
  let (outcome, lines) := onLines l v.hazard v.line p.lines
  let needed :=
    match if outcome.isFixed then preamble? v.hazard l else none with
    | some q => if p.preambles.contains q then p.preambles else p.preambles ++ [q]
    | none => p.preambles
  { fixes := p.fixes ++ [⟨v.hazard, v.line, outcome⟩], preambles := needed, lines }

end Pass

/-- The violations in the order in which they are fixed: later lines first. -/
def ordered (vs : List Violation) : List Violation := vs.mergeSort fun a b => b.line ≤ a.line

/-- The line break of a text: `CR LF` if it has any, else `LF`. -/
def newlineOf (text : List Char) : List Char :=
  if Text.contains ['\r', '\n'] text then ['\r', '\n'] else ['\n']

/-- Lines as one text, with or without a break at its end. -/
def joinLines (newline : List Char) (trailing : Bool) (lines : List Line) : List Char :=
  (lines.intersperse newline).flatten ++ if trailing then newline else []

/-- What becomes of each violation of a text, and the new text if any was fixed. -/
def text (l : Language) (vs : List Violation) (source : List Char) :
    List LineFix × Option (List Char) :=
  let pass := (ordered vs).foldl (Pass.step l) { lines := Text.lines source }
  if pass.fixes.any (·.outcome.isFixed) then
    let lines := Preamble.insertAll l pass.preambles pass.lines
    (pass.fixes, some (joinLines (newlineOf source) (source.getLast? = some '\n') lines))
  else (pass.fixes, none)

end Fix

end Steward
