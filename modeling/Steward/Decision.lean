import Steward.Json
import Steward.Path

/-!
# Actions and decisions

An action is something that is about to be done to a target. A decision says for every rule whether
it allows the action; one denial is enough to forbid it.
-/

namespace Steward

inductive ActionKind where
  | scan
  | read
  | write
  | delete
  | auditAppend
deriving DecidableEq, Repr

namespace ActionKind

def all : List ActionKind := [scan, read, write, delete, auditAppend]

def name : ActionKind → String
  | scan => "Scan"
  | read => "Read"
  | write => "Write"
  | delete => "Delete"
  | auditAppend => "AuditAppend"

def ofName? (s : String) : Option ActionKind := all.find? (·.name = s)

/-- Whether actions of this kind change files. -/
def isWrite : ActionKind → Bool
  | scan | read => false
  | write | delete | auditAppend => true

end ActionKind

structure Action where
  kind : ActionKind
  target : Path
deriving DecidableEq, Repr

namespace Action

def toJson (a : Action) : Json :=
  .obj [("kind", .str a.kind.name), ("target", .str a.target.text)]

end Action

/-- The field of work that a rule belongs to. -/
inductive Domain where
  | codeImplementation
  | documentation
  | dependencyManagement
  | testAutomation
  | diagnostics
deriving DecidableEq, Repr

namespace Domain

def all : List Domain :=
  [codeImplementation, documentation, dependencyManagement, testAutomation, diagnostics]

def name : Domain → String
  | codeImplementation => "code_implementation"
  | documentation => "documentation"
  | dependencyManagement => "dependency_management"
  | testAutomation => "test_automation"
  | diagnostics => "diagnostics"

/-- The name as one capitalised word. -/
def title : Domain → String
  | codeImplementation => "CodeImplementation"
  | documentation => "Documentation"
  | dependencyManagement => "DependencyManagement"
  | testAutomation => "TestAutomation"
  | diagnostics => "Diagnostics"

end Domain

/-- What one rule says about an action. -/
inductive Verdict where
  | allow
  | deny (detail : String)
deriving DecidableEq, Repr

/-- The verdict of a named rule. -/
structure Evaluation where
  ruleId : String
  domain : Domain
  verdict : Verdict
deriving DecidableEq, Repr

namespace Evaluation

def allowed (e : Evaluation) : Bool := e.verdict = .allow

def toJson (e : Evaluation) : Json :=
  .obj ([("rule_id", .str e.ruleId), ("domain", .str e.domain.name), ("allowed", .bool e.allowed)] ++
    match e.verdict with
    | .allow => []
    | .deny detail => [("detail", .str detail)])

end Evaluation

/-- The verdicts of all rules on an action. -/
structure Decision where
  action : Action
  evaluations : List Evaluation
  /-- The rules that deny, in order. -/
  deniedBy : List String
  /-- What each of them says. -/
  violations : List String
deriving DecidableEq, Repr

namespace Decision

def allowed (d : Decision) : Bool := d.deniedBy.isEmpty

def toJson (d : Decision) : Json :=
  .obj
    [("action", d.action.toJson),
     ("evaluations", .arr (d.evaluations.map (·.toJson))),
     ("allowed", .bool d.allowed),
     ("denied_by", .strs d.deniedBy),
     ("violations", .strs d.violations)]

end Decision

end Steward
