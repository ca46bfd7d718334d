import Steward.Command.Help
import Steward.Session.Run

/-!
# Executing commands

A command opens its workspace, does its work and prints the result as JSON. The exit code tells how
it went: nothing found, something found, forbidden, input or output failed, or something else.
-/

namespace Steward

/-- What a program prints and how it ends. -/
structure Execution where
  exit : Nat
  stdout : String
deriving DecidableEq, Repr

namespace Execution

def clean : Nat := 0
def findings : Nat := 1
def denied : Nat := 2
def ioFailure : Nat := 3
def internal : Nat := 4

/-- The exit code for arguments that cannot be understood. -/
def misused : Nat := 2

/-- The exit code of a program that broke off. -/
def brokenOff : Nat := 101

/-- A value printed over several lines. -/
def print (exit : Nat) (j : Json) : Execution := ⟨exit, j.pretty ++ "\n"⟩

def exitOf : Error → Nat
  | .containment .. => denied
  | .denial .. => denied
  | .auditWrite _ => ioFailure
  | .fixFailed _ => ioFailure
  | .io _ => ioFailure
  | _ => internal

def ofError (e : Error) : Execution :=
  print (exitOf e)
    (.obj [("denied_by", .strs e.deniedBy), ("error", .str e.kind), ("message", .str e.fullMessage)])

def ofFault : Fault → Execution
  | .error e => ofError e
  | .calendar => ⟨brokenOff, ""⟩

def ofRun (r : RunReport) : Execution :=
  print
    (match r.status with
      | .clean => clean
      | .healed => clean
      | .findings => findings
      | .partly => if r.hasDenials then denied else ioFailure)
    r.toJson

end Execution

namespace Command

open Execution

/-- Does a command's work in an open session. -/
def work : Command → Work Execution
  | init => do return print clean (← get).session.init.toJson
  | scan path => do return ofRun (← Work.scan path)
  | heal path => do return ofRun (← Work.heal path)
  | audit n => do
    let rs ← Work.tail n
    return ⟨clean, String.join (rs.map fun r => String.ofList r.line ++ "\n")⟩
  | verifyAudit => do
    let r ← Work.verify
    return print (if r.valid then clean else findings) r.toJson
  | rebuildIndex => do return print clean (← Work.rebuildIndex).toJson
  | activity days => do return print clean (← Work.activity days).toJson
  | todos olderThan => do
    let ts ← Work.staleTodos olderThan
    return print (if ts.isEmpty then clean else findings) (.arr (ts.map (·.toJson)))
  | opportunities => do return print clean (.arr ((← Work.opportunities).map (·.toJson)))

end Command

namespace Invocation

/-- The workspace that is meant: the one named, else that of the environment, else the working
directory. -/
def root (i : Invocation) (environment : Option String) (h : Host) : Path :=
  match i.workspace.or environment with
  | some p => ⟨p⟩
  | none => h.tree.workingDir.path

/-- Opens the workspace and does the work. -/
def execute (i : Invocation) (environment : Option String) (h : Host) : Execution × Host :=
  match Session.openAt (i.root environment h) .git h with
  | .error e h => (.ofFault e, h)
  | .ok session h =>
    match i.command.work ⟨h, session⟩ with
    | .ok x d => (x, d.host)
    | .error e d => (.ofFault e, d.host)

end Invocation

namespace Request

/-- What the program does with some arguments. -/
def execute (args : List String) (environment : Option String) (h : Host) : Execution × Host :=
  match ofArguments args with
  | .run i => i.execute environment h
  | .help about => (⟨Execution.clean, Command.helpText about⟩, h)
  | .misuse => (⟨Execution.misused, ""⟩, h)

end Request

end Steward
